import OsEngineering.TransactionCode

/-! The transaction discipline of each function: what a process knows of its own transaction,
of the files in its hands and of its descriptors, and that this is enough at every operation. -/
namespace TransactionRules

open InodeHoles KernelParams OperationTrees TransactionCode

/-- `fresh`: from filealloc(), with no type yet. -/
inductive Hand where
  | empty
  | fresh
  | old
  deriving DecidableEq

/-- Of some descriptors a process knows whether they are open. -/
structure Known where
  trans : Bool
  alive : Bool
  hand : Fin 2 → Hand
  fds : Fd → Option Bool

/-- The place has a file. -/
def Known.Has (l : Known) : Place → Prop
  | .inl fd => l.fds fd = some true
  | .inr x => l.hand x ≠ .empty

def outside : String := "log_write outside of trans"

def Need (l : Known) : Op → Prop
  | .panic msg => msg ≠ outside
  | .beginOp => l.trans = false
  | .endOp | .logWrite | .iput _ => l.trans = true
  | .filealloc x => l.alive = true ∧ l.hand x = .empty
  | .fileclose x | .setType x _ => l.Has x
  | .fdalloc x => l.Has (.inr x)
  | .dup fd => l.Has (.inl fd)
  | .exit => l.trans = false ∧ (∀ x, l.hand x = .empty) ∧ ∀ fd, l.fds fd = some false
  | _ => True

/-- What the answers may be. -/
def Fact (l : Known) : (o : Op) → Answer o → Prop
  | .inode _ (.readi _ _), r => r.1 = 0
  | .fileclose (.inr x), t => l.hand x = .fresh → t = .none
  | _, _ => True

def Known.setHand (l : Known) (x : Fin 2) (h : Hand) : Known :=
  { l with hand := Function.update l.hand x h }

def Known.setFd (l : Known) (fd : Fd) (b : Bool) : Known :=
  { l with fds := Function.update l.fds fd (some b) }

def learn (l : Known) : (o : Op) → Answer o → Known
  | .beginOp, _ => { l with trans := true }
  | .endOp, _ => { l with trans := false }
  | .filealloc x, r => if r = true then l.setHand x .fresh else l
  | .fileclose (.inr x), _ => l.setHand x .empty
  | .fileclose (.inl fd), _ => l.setFd fd false
  | .fdalloc x, some fd => (l.setHand x .empty).setFd fd true
  | .setType (.inr x) _, _ => l.setHand x .old
  | .ofile fd, r => l.setFd fd r.isSome
  | .dup _, some fd => l.setFd fd true
  | .exit, _ => { l with alive := false }
  | _, _ => l

def discipline : Discipline Answer Known :=
  ⟨Need, fun l o r m => Fact l o r ∧ m = learn l o r⟩

/-- Inside a transaction. -/
def Open (l : Known) : Prop := l.trans = true

variable {P : Known → Prop} {α β : Type}

/-- Code that needs nothing beyond `P` and after which nothing else is known. -/
abbrev Steady (P : Known → Prop) (c : Code α) : Prop := Keeps discipline P c

/-! The operations. -/

theorem ask_steady (condition : String) : Steady P (ask condition) :=
  keeps_op (fun _ _ => trivial) fun _ _ _ _ h => h.2

theorem choose_steady (value : String) : Steady P (choose value) :=
  keeps_op (fun _ _ => trivial) fun _ _ _ _ h => h.2

theorem inodeSize_steady (ip : ℕ) : Steady P (inodeSize ip) :=
  keeps_op (fun _ _ => trivial) fun _ _ _ _ h => h.2

theorem panic_steady {msg : String} (h : msg ≠ outside) : Steady P (panic msg : Code α) :=
  fun _ _ => ⟨h, nofun⟩

theorem logWrite_steady : Steady Open logWrite :=
  keeps_op (fun _ h => h) fun _ _ _ _ h => h.2

theorem underLock_steady (ip : ℕ) (o : InodeOp) : Steady P (underLock ip o) :=
  keeps_op (fun _ _ => trivial) fun _ _ _ _ h => h.2

/-- A branch on an answer. -/
theorem ask_then {condition : String} {c d : Code α} (hc : Steady P c) (hd : Steady P d) :
    Steady P (ask condition >>= fun b => if b = true then c else d) :=
  keeps_bind (ask_steady condition) fun _ => keeps_ite hc hd

/-! log.c and fs.c. -/

theorem logWrites_steady (n : ℕ) : Steady Open (logWrites n) := by
  induction n with
  | zero => exact keeps_pure ()
  | succ n ih => exact keeps_bind logWrite_steady fun _ => ih

theorem onInode_steady (ip : ℕ) (o : InodeOp) : Steady Open (onInode ip o) :=
  keeps_bind (underLock_steady ip o) fun r =>
    keeps_bind (logWrites_steady r.1) fun _ => keeps_pure r.2

/-- readi() makes no call of log_write(). -/
theorem onInode_readi_steady (ip off n : ℕ) : Steady P (onInode ip (.readi off n)) := by
  intro l hl
  refine wp_bind (wp_op trivial ?_)
  rintro ⟨logs, r⟩ m ⟨hlogs, rfl⟩
  cases hlogs
  rfl

theorem outcome_steady (value : String) : Steady P (outcome value) :=
  ask_then (keeps_pure _) (keeps_bind (choose_steady value) fun _ => keeps_pure _)

theorem readi_steady (ip off n : ℕ) : Steady P (readi ip off n) :=
  ask_then (outcome_steady _) (onInode_readi_steady ip off n)

theorem writei_steady (ip off n : ℕ) : Steady Open (writei ip off n) :=
  ask_then (outcome_steady _) (onInode_steady ip _)

theorem iupdate_steady : Steady Open iupdate := logWrites_steady 1

theorem iget_steady (inum : ℕ) : Steady P (iget inum) :=
  ask_then (panic_steady (by decide)) (keeps_pure inum)

theorem ilock_steady : Steady P ilock :=
  ask_then (panic_steady (by decide)) (ask_then (panic_steady (by decide)) (keeps_pure ()))

theorem iunlock_steady : Steady P iunlock :=
  ask_then (panic_steady (by decide)) (keeps_pure ())

theorem iput_steady (ip : ℕ) : Steady Open (iput ip) := by
  refine keeps_bind (keeps_op (fun _ h => h) fun _ _ _ _ h => h.2) fun _ => ?_
  refine ask_then (ask_then ?_ (keeps_pure ())) (keeps_pure ())
  exact keeps_bind (onInode_steady ip .itrunc) fun _ => iupdate_steady

theorem iunlockput_steady (ip : ℕ) : Steady Open (iunlockput ip) :=
  keeps_bind iunlock_steady fun _ => iput_steady ip

theorem ialloc_steady : Steady Open ialloc := by
  refine ask_then ?_ (panic_steady (by decide))
  refine keeps_bind (choose_steady _) fun inum => ?_
  exact keeps_bind (onInode_steady inum .ialloc) fun _ => iget_steady inum

theorem dirlookupFrom_steady (dp rest off : ℕ) : Steady P (dirlookupFrom dp rest off) := by
  induction rest generalizing off with
  | zero => exact keeps_pure none
  | succ rest ih =>
    refine keeps_bind (readi_steady dp off direntSize) fun r => ?_
    refine keeps_ite (panic_steady (by decide)) ?_
    refine ask_then (ih _) (ask_then ?_ (ih _))
    refine keeps_bind (choose_steady _) fun inum => ?_
    exact keeps_bind (iget_steady inum) fun ip => keeps_pure _

theorem dirlookup_steady (dp : ℕ) : Steady P (dirlookup dp) := by
  refine ask_then (panic_steady (by decide)) ?_
  exact keeps_bind (inodeSize_steady dp) fun size => dirlookupFrom_steady dp _ _

theorem emptyFrom_steady (dp rest off : ℕ) : Steady P (emptyFrom dp rest off) := by
  induction rest generalizing off with
  | zero => exact keeps_pure off
  | succ rest ih =>
    refine keeps_bind (readi_steady dp off direntSize) fun r => ?_
    refine keeps_ite (panic_steady (by decide)) ?_
    exact ask_then (keeps_pure off) (ih _)

theorem dirlink_steady (dp : ℕ) : Steady Open (dirlink dp) := by
  refine keeps_bind (dirlookup_steady dp) fun found => ?_
  cases found with
  | some r => exact keeps_bind (iput_steady r.1) fun _ => keeps_pure false
  | none =>
    refine keeps_bind (inodeSize_steady dp) fun size => ?_
    refine keeps_bind (emptyFrom_steady dp _ 0) fun off => ?_
    refine keeps_bind (writei_steady dp off direntSize) fun r => ?_
    exact keeps_ite (panic_steady (by decide)) (keeps_pure true)

theorem namexFrom_steady (nameiparent : Bool) (rest ip : ℕ) :
    Steady Open (namexFrom nameiparent rest ip) := by
  induction rest generalizing ip with
  | zero => exact keeps_ite (keeps_bind (iput_steady ip) fun _ => keeps_pure none) (keeps_pure _)
  | succ rest ih =>
    refine keeps_bind ilock_steady fun _ => ?_
    refine ask_then (keeps_bind (iunlockput_steady ip) fun _ => keeps_pure none) ?_
    refine keeps_ite (keeps_bind iunlock_steady fun _ => keeps_pure _) ?_
    refine keeps_bind (dirlookup_steady ip) fun found => ?_
    cases found with
    | none => exact keeps_bind (iunlockput_steady ip) fun _ => keeps_pure none
    | some r => exact keeps_bind (iunlockput_steady ip) fun _ => ih r.1

theorem namex_steady (nameiparent : Bool) : Steady Open (namex nameiparent) := by
  refine keeps_bind (choose_steady _) fun elements => ?_
  refine ask_then ?_ ?_
  · exact keeps_bind (iget_steady _) fun ip => namexFrom_steady nameiparent elements ip
  · exact keeps_bind (choose_steady _) fun ip => namexFrom_steady nameiparent elements ip

theorem createDots_steady (type : InodeType) (ip : ℕ) : Steady Open (createDots type ip) := by
  refine keeps_ite ?_ (keeps_pure ())
  refine keeps_bind iupdate_steady fun _ => ?_
  refine keeps_bind (dirlink_steady ip) fun _ => keeps_ite ?_ (panic_steady (by decide))
  refine keeps_bind (dirlink_steady ip) fun _ => ?_
  exact keeps_ite (keeps_pure ()) (panic_steady (by decide))

theorem createNew_steady (type : InodeType) (dp : ℕ) : Steady Open (createNew type dp) := by
  refine keeps_bind ialloc_steady fun ip => ?_
  refine keeps_bind ilock_steady fun _ => ?_
  refine keeps_bind iupdate_steady fun _ => ?_
  refine keeps_bind (createDots_steady type ip) fun _ => ?_
  refine keeps_bind (dirlink_steady dp) fun _ => keeps_ite ?_ (panic_steady (by decide))
  exact keeps_bind (iunlockput_steady dp) fun _ => keeps_pure _

theorem create_steady (type : InodeType) : Steady Open (create type) := by
  refine keeps_bind (namex_steady true) fun found => ?_
  cases found with
  | none => exact keeps_pure none
  | some dp =>
    refine keeps_bind ilock_steady fun _ => ?_
    refine keeps_bind (dirlookup_steady dp) fun found => ?_
    cases found with
    | none => exact createNew_steady type dp
    | some r =>
      refine keeps_bind (iunlockput_steady dp) fun _ => ?_
      refine keeps_bind ilock_steady fun _ => ?_
      refine keeps_bind (ask_steady _) fun file => ?_
      refine keeps_ite (keeps_pure _) ?_
      exact keeps_bind (iunlockput_steady r.1) fun _ => keeps_pure none

theorem isdiremptyFrom_steady (dp rest off : ℕ) : Steady P (isdiremptyFrom dp rest off) := by
  induction rest generalizing off with
  | zero => exact keeps_pure true
  | succ rest ih =>
    refine keeps_bind (readi_steady dp off direntSize) fun r => ?_
    refine keeps_ite (panic_steady (by decide)) ?_
    exact ask_then (keeps_pure false) (ih _)

theorem isdirempty_steady (dp : ℕ) : Steady P (isdirempty dp) :=
  keeps_bind (inodeSize_steady dp) fun _ => isdiremptyFrom_steady dp _ _

theorem loaduvmFrom_steady (ip fuel offset sz : ℕ) : Steady P (loaduvmFrom ip fuel offset sz) := by
  induction fuel generalizing offset sz with
  | zero => exact keeps_pure true
  | succ fuel ih =>
    refine keeps_ite (keeps_pure true) ?_
    refine ask_then (panic_steady (by decide)) ?_
    refine keeps_bind (readi_steady ip offset _) fun r => ?_
    exact keeps_ite (keeps_pure false) (ih _ _)

theorem loaduvm_steady (ip offset sz : ℕ) : Steady P (loaduvm ip offset sz) :=
  ask_then (panic_steady (by decide)) (loaduvmFrom_steady ip sz offset sz)

theorem loadProgram_steady (ip rest off : ℕ) : Steady P (loadProgram ip rest off) := by
  induction rest generalizing off with
  | zero => exact keeps_pure true
  | succ rest ih =>
    refine keeps_bind (readi_steady ip off proghdrSize) fun r => ?_
    refine keeps_ite (keeps_pure false) ?_
    refine ask_then (ih _) (ask_then (keeps_pure false) (ask_then (keeps_pure false) ?_))
    refine ask_then (keeps_pure false) (ask_then (keeps_pure false) ?_)
    refine keeps_bind (choose_steady _) fun offset => ?_
    refine keeps_bind (choose_steady _) fun filesz => ?_
    refine keeps_bind (loaduvm_steady ip offset filesz) fun _ => ?_
    exact keeps_ite (ih _) (keeps_pure false)

theorem loadImage_steady (ip : ℕ) : Steady P (loadImage ip) := by
  refine keeps_bind (readi_steady ip 0 elfhdrSize) fun r => ?_
  refine keeps_ite (keeps_pure false) ?_
  refine ask_then (keeps_pure false) (ask_then (keeps_pure false) ?_)
  refine keeps_bind (choose_steady _) fun phoff => ?_
  refine keeps_bind (choose_steady _) fun phnum => ?_
  exact loadProgram_steady ip phnum phoff

/-! The bracket. -/

/-- Between the transactions of a call. -/
def Idle (l : Known) : Prop := l.trans = false ∧ l.alive = true ∧ ∀ x, l.hand x = .empty

def Inside (l : Known) : Prop := l.trans = true ∧ l.alive = true ∧ ∀ x, l.hand x = .empty

/-- How every call returns. -/
def Ended (_ : α) (l : Known) : Prop := l.trans = false ∧ ∀ x, l.hand x = .empty

variable {l : Known} {c d : Code α} {f : Code β} {Q : α → Known → Prop}

theorem Idle.ended (h : Idle l) (a : α) : Ended a l := ⟨h.1, h.2.2⟩

theorem ask_wp {condition : String} (hc : wp discipline c Q l) (hd : wp discipline d Q l) :
    wp discipline (ask condition >>= fun b => if b = true then c else d) Q l := by
  refine (ask_steady (P := fun _ => True) condition).then trivial fun b => ?_
  cases b with
  | true => exact hc
  | false => exact hd

theorem beginOp_wp (hl : Idle l) (h : ∀ m, Inside m → { m with trans := false } = l →
    wp discipline c Q m) : wp discipline (beginOp >>= fun _ => c) Q l := by
  refine wp_bind (wp_op hl.1 ?_)
  rintro - m ⟨-, rfl⟩
  refine h _ ⟨rfl, hl.2⟩ ?_
  simp only [learn, ← hl.1]

theorem endOp_wp (hl : Inside l) (h : wp discipline c Q { l with trans := false }) :
    wp discipline (endOp >>= fun _ => c) Q l := by
  refine wp_bind (wp_op hl.1 ?_)
  rintro - m ⟨-, rfl⟩
  exact h

/-- A piece of the transaction. -/
theorem Inside.next {k : β → Code α} (hl : Inside l) (h : Steady Open f)
    (hk : ∀ a, wp discipline (k a) Q l) : wp discipline (f >>= k) Q l :=
  h.then hl.1 hk

/-- The end of a transaction and of the call. -/
theorem endOp_ends (hl : Inside l) (a : α) :
    wp discipline (endOp >>= fun _ => (pure a : Code α)) Ended l :=
  endOp_wp hl ⟨rfl, hl.2.2⟩

theorem iunlockput_ends (hl : Inside l) (ip : ℕ) (a : α) :
    wp discipline (iunlockput ip >>= fun _ => endOp >>= fun _ => (pure a : Code α)) Ended l :=
  hl.next (iunlockput_steady ip) fun _ => endOp_ends hl a

theorem panic_wp {msg : String} (h : msg ≠ outside) : wp discipline (panic msg) Q l :=
  ⟨h, nofun⟩

/-! Files and descriptors. -/

@[simp]
theorem setHand_self (l : Known) (x : Fin 2) (h : Hand) : (l.setHand x h).hand x = h :=
  Function.update_self _ _ _

@[simp]
theorem setHand_other {x y : Fin 2} (hy : y ≠ x) (l : Known) (h : Hand) :
    (l.setHand x h).hand y = l.hand y :=
  Function.update_of_ne hy _ _

@[simp]
theorem setFd_self (l : Known) (fd : Fd) (b : Bool) : (l.setFd fd b).fds fd = some b :=
  Function.update_self _ _ _

@[simp]
theorem setFd_hand (l : Known) (fd : Fd) (b : Bool) : (l.setFd fd b).hand = l.hand := rfl

theorem hands_empty (h0 : l.hand 0 = .empty) (h1 : l.hand 1 = .empty) (x : Fin 2) :
    l.hand x = .empty := by
  revert x
  exact Fin.forall_fin_two.mpr ⟨h0, h1⟩

/-- What is known when the file at the place is given up. -/
def Known.drop (l : Known) : Place → Known
  | .inl fd => l.setFd fd false
  | .inr x => l.setHand x .empty

theorem drop_trans (l : Known) (x : Place) : (l.drop x).trans = l.trans := by
  cases x <;> rfl

/-- A file may be closed for good where no transaction is open. -/
theorem fileclose_wp {x : Place} (ht : l.trans = false) (hx : l.Has x)
    (h : wp discipline c Q (l.drop x)) : wp discipline (fileclose x >>= fun _ => c) Q l := by
  refine wp_bind (wp_bind (wp_op hx ?_))
  rintro t m ⟨-, hm⟩
  have hdrop : m = l.drop x := by
    rw [hm]
    cases x <;> rfl
  rw [hdrop]
  have htrans : (l.drop x).trans = false := (drop_trans l x).trans ht
  cases t with
  | none => exact h
  | pipe => exact h
  | inode ip =>
    refine wp_bind (wp_op htrans ?_)
    rintro - m ⟨-, rfl⟩
    refine (iput_steady ip).then rfl fun _ => ?_
    refine wp_op rfl ?_
    rintro - m ⟨-, rfl⟩
    have hback : learn { l.drop x with trans := true } .endOp () = l.drop x := by
      simp only [learn, ← htrans]
    exact hback ▸ h

/-- A new file has no inode to give up, in a transaction or not. -/
theorem fileclose_fresh {x : Fin 2} (hx : l.hand x = .fresh)
    (h : wp discipline c Q (l.setHand x .empty)) :
    wp discipline (fileclose (.inr x) >>= fun _ => c) Q l := by
  have hne : l.hand x ≠ .empty := by
    rw [hx]
    nofun
  refine wp_bind (wp_bind (wp_op hne ?_))
  rintro t m ⟨hnone, rfl⟩
  rw [hnone hx]
  exact h

theorem filealloc_wp {x : Fin 2} (ha : l.alive = true) (hx : l.hand x = .empty)
    (ht : wp discipline c Q (l.setHand x .fresh)) (hf : wp discipline d Q l) :
    wp discipline (filealloc x >>= fun b => if b = true then c else d) Q l := by
  refine wp_bind (wp_op ⟨ha, hx⟩ ?_)
  rintro b m ⟨-, rfl⟩
  cases b with
  | true => exact ht
  | false => exact hf

theorem fdalloc_wp {x : Fin 2} {k : Option Fd → Code α} (hx : l.hand x ≠ .empty)
    (hn : wp discipline (k none) Q l)
    (hs : ∀ fd, wp discipline (k (some fd)) Q ((l.setHand x .empty).setFd fd true)) :
    wp discipline (fdalloc x >>= k) Q l := by
  refine wp_bind (wp_op hx ?_)
  rintro r m ⟨-, rfl⟩
  cases r with
  | none => exact hn
  | some fd => exact hs fd

theorem setType_wp {x : Place} {t : FileType} (hx : l.Has x)
    (h : wp discipline c Q (learn l (.setType x t) ())) :
    wp discipline (setType x t >>= fun _ => c) Q l := by
  refine wp_bind (wp_op hx ?_)
  rintro - m ⟨-, rfl⟩
  exact h

theorem argfd_wp {fd : ℤ} {k : Option (Fd × FileType) → Code α} (hl : Idle l)
    (hn : ∀ m, Idle m → wp discipline (k none) Q m)
    (hs : ∀ fd t m, Idle m → m.fds fd = some true → wp discipline (k (some (fd, t))) Q m) :
    wp discipline (argfd fd >>= k) Q l := by
  refine wp_bind ?_
  simp only [argfd]
  split
  · refine wp_bind (wp_op trivial ?_)
    rintro r m ⟨-, rfl⟩
    cases r with
    | none => exact hn _ hl
    | some t => exact hs _ t _ hl (Function.update_self _ _ _)
  · exact hn l hl

theorem filestat_steady (t : FileType) : Steady P (filestat t) := by
  cases t with
  | inode ip => exact keeps_bind ilock_steady fun _ => keeps_bind iunlock_steady fun _ => keeps_pure 0
  | none => exact keeps_pure _
  | pipe => exact keeps_pure _

theorem fileread_steady (t : FileType) (n : ℕ) : Steady P (fileread t n) := by
  refine ask_then (keeps_pure _) ?_
  cases t with
  | pipe => exact outcome_steady _
  | none => exact panic_steady (by decide)
  | inode ip =>
    refine keeps_bind ilock_steady fun _ => ?_
    refine keeps_bind (choose_steady _) fun off => ?_
    refine keeps_bind (readi_steady ip off n) fun r => ?_
    exact keeps_bind iunlock_steady fun _ => keeps_pure r

theorem filewriteFrom_steady (ip fuel n : ℕ) : Steady Idle (filewriteFrom ip fuel n) := by
  induction fuel generalizing n with
  | zero => exact keeps_pure true
  | succ fuel ih =>
    refine keeps_ite (keeps_pure true) ?_
    intro l hl
    refine beginOp_wp hl fun m hm hback => ?_
    refine hm.next ilock_steady fun _ => ?_
    refine hm.next (choose_steady _) fun off => ?_
    refine hm.next (writei_steady ip off _) fun r => ?_
    refine hm.next iunlock_steady fun _ => endOp_wp hm ?_
    rw [hback]
    exact keeps_ite (keeps_pure false) (keeps_ite (panic_steady (by decide)) (ih _)) l hl

theorem filewrite_steady (t : FileType) (n : ℕ) : Steady Idle (filewrite t n) := by
  refine ask_then (keeps_pure _) ?_
  cases t with
  | pipe => exact outcome_steady _
  | none => exact panic_steady (by decide)
  | inode ip =>
    refine keeps_bind (filewriteFrom_steady ip n n) fun _ => ?_
    exact keeps_ite (keeps_pure _) (keeps_pure _)

/-- A call that changes nothing in what is known. -/
theorem Keeps.ends (h : Steady Idle c) (hl : Idle l) : wp discipline c Ended l :=
  wp_mono (h l hl) fun a _ hm => hm ▸ hl.ended a

/-! The system calls. -/

theorem sysDup_ends (fd : ℤ) (hl : Idle l) : wp discipline (sysDup fd) Ended l := by
  refine argfd_wp hl (fun m hm => wp_pure (hm.ended _)) fun fd t m hm hfd => ?_
  refine wp_bind (wp_op hfd ?_)
  rintro r m' ⟨-, rfl⟩
  cases r with
  | none => exact wp_pure (hm.ended _)
  | some new => exact hm.ended (new.val : ℤ)

theorem sysRead_ends (fd n : ℤ) (hl : Idle l) : wp discipline (sysRead fd n) Ended l := by
  refine argfd_wp hl (fun m hm => wp_pure (hm.ended _)) fun fd t m hm _ => Keeps.ends ?_ hm
  exact keeps_ite (keeps_pure _) (ask_then (keeps_pure _) (fileread_steady t _))

theorem sysWrite_ends (fd n : ℤ) (hl : Idle l) : wp discipline (sysWrite fd n) Ended l := by
  refine argfd_wp hl (fun m hm => wp_pure (hm.ended _)) fun fd t m hm _ => Keeps.ends ?_ hm
  exact keeps_ite (keeps_pure _) (ask_then (keeps_pure _) (filewrite_steady t _))

theorem sysFstat_ends (fd : ℤ) (hl : Idle l) : wp discipline (sysFstat fd) Ended l := by
  refine argfd_wp hl (fun m hm => wp_pure (hm.ended _)) fun fd t m hm _ => Keeps.ends ?_ hm
  exact ask_then (keeps_pure _) (filestat_steady t)

theorem sysClose_ends (fd : ℤ) (hl : Idle l) : wp discipline (sysClose fd) Ended l := by
  refine argfd_wp hl (fun m hm => wp_pure (hm.ended _)) fun fd t m hm hfd => ?_
  refine fileclose_wp hm.1 hfd ?_
  exact ⟨hm.1, hm.2.2⟩

theorem linkBad_ends (hl : Inside l) (ip : ℕ) : wp discipline (linkBad ip) Ended l := by
  refine hl.next ilock_steady fun _ => ?_
  exact hl.next iupdate_steady fun _ => iunlockput_ends hl ip _

theorem sysLink_ends (hl : Idle l) : wp discipline sysLink Ended l := by
  refine ask_wp (wp_pure (hl.ended _)) (beginOp_wp hl fun m hm _ => ?_)
  refine hm.next (namex_steady false) fun found => ?_
  cases found with
  | none => exact endOp_ends hm _
  | some ip =>
    refine hm.next ilock_steady fun _ => ask_wp (iunlockput_ends hm ip _) ?_
    refine hm.next iupdate_steady fun _ => ?_
    refine hm.next iunlock_steady fun _ => ?_
    refine hm.next (namex_steady true) fun found => ?_
    have hbad : ∀ dp, wp discipline (iunlockput dp >>= fun _ => linkBad ip) Ended m :=
      fun dp => hm.next (iunlockput_steady dp) fun _ => linkBad_ends hm ip
    cases found with
    | none => exact linkBad_ends hm ip
    | some dp =>
      refine hm.next ilock_steady fun _ => ask_wp (hbad dp) ?_
      refine hm.next (dirlink_steady dp) fun linked => ?_
      cases linked with
      | false => exact hbad dp
      | true =>
        refine hm.next (iunlockput_steady dp) fun _ => ?_
        exact hm.next (iput_steady ip) fun _ => endOp_ends hm _

theorem unlinkBad_ends (hl : Inside l) (dp : ℕ) : wp discipline (unlinkBad dp) Ended l :=
  iunlockput_ends hl dp _

theorem unlinkEnd_ends (hl : Inside l) (dp ip : ℕ) : wp discipline (unlinkEnd dp ip) Ended l := by
  refine hl.next (iunlockput_steady dp) fun _ => ?_
  exact hl.next iupdate_steady fun _ => iunlockput_ends hl ip _

theorem unlinkEntry_ends (hl : Inside l) (dp ip off : ℕ) (dir : Bool) :
    wp discipline (unlinkEntry dp ip off dir) Ended l := by
  refine hl.next (writei_steady dp off direntSize) fun r => ?_
  split
  · exact panic_wp (by decide)
  · split
    · exact hl.next iupdate_steady fun _ => unlinkEnd_ends hl dp ip
    · exact unlinkEnd_ends hl dp ip

theorem sysUnlink_ends (hl : Idle l) : wp discipline sysUnlink Ended l := by
  refine ask_wp (wp_pure (hl.ended _)) (beginOp_wp hl fun m hm _ => ?_)
  refine hm.next (namex_steady true) fun found => ?_
  cases found with
  | none => exact endOp_ends hm _
  | some dp =>
    refine hm.next ilock_steady fun _ => ask_wp (unlinkBad_ends hm dp) ?_
    refine hm.next (dirlookup_steady dp) fun found => ?_
    cases found with
    | none => exact unlinkBad_ends hm dp
    | some r =>
      obtain ⟨ip, off⟩ := r
      refine hm.next ilock_steady fun _ => ask_wp (panic_wp (by decide)) ?_
      refine ask_wp ?_ (unlinkEntry_ends hm dp ip off false)
      refine hm.next (isdirempty_steady ip) fun bare => ?_
      cases bare with
      | true => exact unlinkEntry_ends hm dp ip off true
      | false => exact hm.next (iunlockput_steady ip) fun _ => unlinkBad_ends hm dp

/-- sys_open() has its inode, or has ended its transaction. -/
theorem openInode_wp {k : Option ℕ → Code α} (hl : Inside l)
    (hn : wp discipline (k none) Q { l with trans := false })
    (hs : ∀ ip, wp discipline (k (some ip)) Q l) : wp discipline (openInode >>= k) Q l := by
  refine wp_bind (ask_wp ?_ ?_)
  · refine hl.next (create_steady _) fun found => ?_
    cases found with
    | none => exact endOp_wp hl hn
    | some ip => exact hs ip
  · refine hl.next (namex_steady false) fun found => ?_
    cases found with
    | none => exact endOp_wp hl hn
    | some ip =>
      refine hl.next ilock_steady fun _ => ask_wp ?_ (hs ip)
      exact hl.next (iunlockput_steady ip) fun _ => endOp_wp hl hn

theorem sysOpen_ends (hl : Idle l) : wp discipline sysOpen Ended l := by
  refine ask_wp (wp_pure (hl.ended _)) (beginOp_wp hl fun m hm _ => ?_)
  refine openInode_wp hm (wp_pure ⟨rfl, hm.2.2⟩) fun ip => ?_
  refine filealloc_wp hm.2.1 (hm.2.2 rf) ?_ (iunlockput_ends hm ip _)
  have hfresh : (m.setHand rf .fresh).hand rf = .fresh := setHand_self _ _ _
  have hin : Inside ((m.setHand rf .fresh).setHand rf .empty) :=
    ⟨hm.1, hm.2.1, hands_empty (by simp) (by simp [hm.2.2 1])⟩
  refine fdalloc_wp ?_ (fileclose_fresh hfresh (iunlockput_ends hin ip _)) fun fd => ?_
  · rw [hfresh]
    nofun
  · have hin' : Inside (((m.setHand rf .fresh).setHand rf .empty).setFd fd true) := hin
    refine hin'.next iunlock_steady fun _ => endOp_wp hin' ?_
    exact setType_wp (setFd_self _ fd true) (wp_pure ⟨rfl, hin.2.2⟩)

theorem sysMake_ends (type : InodeType) (arguments : String) (hl : Idle l) :
    wp discipline (sysMake type arguments) Ended l := by
  refine beginOp_wp hl fun m hm _ => ask_wp (endOp_ends hm _) ?_
  refine hm.next (create_steady type) fun found => ?_
  cases found with
  | none => exact endOp_ends hm _
  | some ip => exact iunlockput_ends hm ip _

theorem sysChdir_ends (hl : Idle l) : wp discipline sysChdir Ended l := by
  refine beginOp_wp hl fun m hm _ => ask_wp (endOp_ends hm _) ?_
  refine hm.next (namex_steady false) fun found => ?_
  cases found with
  | none => exact endOp_ends hm _
  | some ip =>
    refine hm.next ilock_steady fun _ => ask_wp (iunlockput_ends hm ip _) ?_
    refine hm.next iunlock_steady fun _ => ?_
    refine hm.next (choose_steady _) fun cwd => ?_
    exact hm.next (iput_steady cwd) fun _ => endOp_ends hm _

/-- pipealloc() gives both files a type, or keeps neither. -/
theorem pipealloc_wp (hl : Idle l) (hf : ∀ m, Idle m → wp discipline d Q m)
    (ht : ∀ m, m.trans = false → m.alive = true → (∀ x, m.hand x = .old) → wp discipline c Q m) :
    wp discipline (pipealloc >>= fun b => if b = true then c else d) Q l := by
  have h0 := hl.2.2 0
  have h1 := hl.2.2 1
  refine wp_bind (filealloc_wp hl.2.1 h0 ?_ (hf l hl))
  refine filealloc_wp hl.2.1 (by simp [h1]) (ask_wp ?_ ?_) ?_
  · refine fileclose_fresh (by simp) (fileclose_fresh (by simp) (hf _ ⟨hl.1, hl.2.1, ?_⟩))
    exact hands_empty (by simp) (by simp)
  · refine setType_wp (x := .inr 0) (by simp [Known.Has]) ?_
    refine setType_wp (x := .inr 1) (by simp [Known.Has, learn]) ?_
    refine ht _ hl.1 hl.2.1 (Fin.forall_fin_two.mpr ⟨?_, ?_⟩)
    · simp [learn]
    · simp [learn]
  · refine fileclose_fresh (by simp) (hf _ ⟨hl.1, hl.2.1, ?_⟩)
    exact hands_empty (by simp) (by simp [h1])

theorem sysPipe_ends (hl : Idle l) : wp discipline sysPipe Ended l := by
  refine ask_wp (wp_pure (hl.ended _)) ?_
  refine pipealloc_wp hl (fun m hm => wp_pure (hm.ended _)) fun m ht ha hold => ?_
  refine fdalloc_wp (by simp [hold]) ?_ fun fd0 => ?_
  · refine fileclose_wp ht (by simp [Known.Has, hold]) ?_
    refine fileclose_wp ht (by simp [Known.Has, Known.drop, hold]) ?_
    exact wp_pure ⟨ht, hands_empty (by simp [Known.drop]) (by simp [Known.drop])⟩
  · refine fdalloc_wp (by simp [hold]) ?_ fun fd1 => ?_
    · refine fileclose_wp ht (setFd_self _ fd0 true) ?_
      refine fileclose_wp ht (by simp [Known.Has, Known.drop, hold]) ?_
      exact wp_pure ⟨ht, hands_empty (by simp [Known.drop]) (by simp [Known.drop])⟩
    · exact wp_pure ⟨ht, hands_empty (by simp) (by simp)⟩

theorem exec_ends (hl : Idle l) : wp discipline exec Ended l := by
  refine beginOp_wp hl fun m hm hback => ?_
  refine hm.next (namex_steady false) fun found => ?_
  cases found with
  | none => exact endOp_ends hm _
  | some ip =>
    refine hm.next ilock_steady fun _ => ?_
    refine hm.next (loadImage_steady ip) fun loaded => ?_
    cases loaded with
    | false => exact iunlockput_ends hm ip _
    | true =>
      refine hm.next (iunlockput_steady ip) fun _ => endOp_wp hm ?_
      rw [hback]
      exact ask_wp (wp_pure (hl.ended _)) (wp_pure (hl.ended _))

theorem fork_steady : Steady P fork := by
  refine ask_then (keeps_pure _) ?_
  refine keeps_bind (keeps_op (fun _ _ => trivial) fun _ _ _ _ h => h.2) fun made => ?_
  exact keeps_ite (keeps_bind (choose_steady _) fun _ => keeps_pure _) (keeps_pure _)

/-- After the loop of exit() its descriptors are closed, and those that were stay closed. -/
theorem closeAll_wp (fds : List Fd) (hl : Idle l) :
    wp discipline (closeAll fds)
      (fun _ m => Idle m ∧ ∀ fd, fd ∈ fds ∨ l.fds fd = some false → m.fds fd = some false) l := by
  induction fds generalizing l with
  | nil => exact wp_pure ⟨hl, fun fd h => h.resolve_left (List.not_mem_nil)⟩
  | cons fd fds ih =>
    have hclosed : ∀ m, Idle m → m.fds fd = some false →
        (∀ fd', l.fds fd' = some false → m.fds fd' = some false) →
        wp discipline (closeAll fds) (fun _ m => Idle m ∧ ∀ fd', fd' ∈ fd :: fds ∨
          l.fds fd' = some false → m.fds fd' = some false) m := by
      intro m hm hfd hkeep
      refine wp_mono (ih hm) ?_
      rintro - m' ⟨hm', hall⟩
      refine ⟨hm', fun fd' h => hall fd' ?_⟩
      rcases h with h | h
      · rcases List.mem_cons.mp h with rfl | h
        · exact Or.inr hfd
        · exact Or.inl h
      · exact Or.inr (hkeep fd' h)
    have hother : ∀ (m : Known) (b : Bool) fd', fd' ≠ fd → (m.setFd fd b).fds fd' = m.fds fd' :=
      fun m b fd' hne => Function.update_of_ne hne _ _
    refine wp_bind (wp_op trivial ?_)
    rintro r m ⟨-, rfl⟩
    cases r with
    | none =>
      refine hclosed _ hl (setFd_self _ _ _) fun fd' h => ?_
      by_cases hne : fd' = fd
      · rw [hne]
        exact setFd_self _ _ _
      · exact (hother _ _ fd' hne).trans h
    | some t =>
      refine fileclose_wp hl.1 (setFd_self _ _ _) ?_
      refine hclosed _ hl (setFd_self _ _ _) fun fd' h => ?_
      by_cases hne : fd' = fd
      · rw [hne]
        exact setFd_self _ _ _
      · exact (hother _ _ fd' hne).trans ((hother _ _ fd' hne).trans h)

theorem exit_ends (hl : Idle l) : wp discipline exit Ended l := by
  refine ask_wp (panic_wp (by decide)) (wp_bind (wp_mono (closeAll_wp _ hl) ?_))
  rintro - m ⟨hm, hclosed⟩
  refine beginOp_wp hm fun m' hm' hback => ?_
  refine hm'.next (choose_steady _) fun cwd => ?_
  refine hm'.next (iput_steady cwd) fun _ => endOp_wp hm' ?_
  rw [hback]
  refine wp_bind (wp_op ⟨hm.1, hm.2.2, fun fd => hclosed fd (Or.inl (List.mem_finRange fd))⟩ ?_)
  rintro - m'' ⟨-, rfl⟩
  exact wp_pure ⟨hm.1, hm.2.2⟩

/-- Every system call keeps to the discipline, and returns outside of a transaction with
nothing in its hands. -/
theorem syscall_ends (c : Syscall) (hl : Idle l) : wp discipline (syscall c) Ended l := by
  cases c with
  | fork => exact Keeps.ends fork_steady hl
  | exit => exact exit_ends hl
  | pipe => exact sysPipe_ends hl
  | read fd n => exact sysRead_ends fd n hl
  | exec => exact ask_wp (wp_pure (hl.ended _)) (exec_ends hl)
  | fstat fd => exact sysFstat_ends fd hl
  | chdir => exact sysChdir_ends hl
  | dup fd => exact sysDup_ends fd hl
  | openFile => exact sysOpen_ends hl
  | write fd n => exact sysWrite_ends fd n hl
  | mknod => exact sysMake_ends _ _ hl
  | unlink => exact sysUnlink_ends hl
  | link => exact sysLink_ends hl
  | mkdir => exact sysMake_ends _ _ hl
  | close fd => exact sysClose_ends fd hl
  | other => exact Keeps.ends (outcome_steady _) hl

end TransactionRules

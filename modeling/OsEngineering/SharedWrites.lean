import OsEngineering.FileWriteCall
import OsEngineering.TransitionSystem

/-! Any number of processes in filewrite() on one struct file. The lock of the inode is held from
ilock() to iunlock(), so that a chunk is one step; the processes run in any order between chunks. -/
namespace SharedWrites

open ByteBlock FaultState TransitionSystem KernelParams BlockAllocation BlockOwnership FreeBlocks
open BlockSlots FileContents FileWrites FileArrays ListOverwrite FileWriteCall
open MkfsImage (T_FILE)

/-- A call in the loop of filewrite(), with its arguments and its `i`. -/
structure Call where
  addr : ℕ → Byte
  n : ℤ
  i : ℤ

/-- `chunks` are those that have taken the lock, `returned` what the calls have returned. -/
structure State (π : Type) where
  kernel : Kernel
  call : π → Option Call
  chunks : List (π × List Byte)
  returned : π → List (Call × ℤ)
  halted : Option Fault

inductive Event (π : Type) where
  | filewrite (p : π) (addr : ℕ → Byte) (n : ℤ)
  | chunk (p : π)
  | leave (p : π)

def Call.n1 (c : Call) : ℤ := min (c.n - c.i) maxChunk

def Call.rest (c : Call) : ℕ → Byte := fun k => c.addr (c.i.toNat + k)

variable {π : Type} [DecidableEq π]

/-- Behind the loop. -/
def leave (s : State π) (p : π) (c : Call) : State π :=
  { s with
    call := Function.update s.call p none
    returned := Function.update s.returned p
      (s.returned p ++ [(c, if c.i = c.n then c.n else -1)]) }

def enter (s : State π) (p : π) (c : Call) : State π :=
  if s.kernel.file.writable = false then
    { s with returned := Function.update s.returned p (s.returned p ++ [(c, -1)]) }
  else { s with call := Function.update s.call p (some c) }

/-- The chunk of `p` has taken the lock. -/
def took (s : State π) (p : π) (c : Call) (t : Kernel) : State π :=
  { s with
    kernel := t
    chunks := s.chunks ++ [(p, bytesOf c.rest c.n1.toNat)] }

/-- After end_op(). -/
def goOn (s : State π) (p : π) (c : Call) (r : ℤ) : State π :=
  if r < 0 then leave s p c
  else if r ≠ c.n1 then { s with halted := some (.panic "short filewrite") }
  else { s with call := Function.update s.call p (some { c with i := c.i + r }) }

section Machine

variable (sb : Superblock) (dev : Half → Option (Word → ℤ))

/-- One round of the loop. -/
def chunk (s : State π) (p : π) (c : Call) : State π :=
  match writeChunk sb dev c.rest c.n1 s.kernel with
  | .ok (r, t) => goOn (took s p c t) p c r
  | .error e => { s with halted := some e }

def Possible (s : State π) : Event π → Prop
  | .filewrite p _ _ => s.call p = none
  | .chunk p => ∃ c, s.call p = some c ∧ c.i < c.n
  | .leave p => ∃ c, s.call p = some c ∧ ¬ c.i < c.n

def next (s : State π) : Event π → State π
  | .filewrite p addr n => enter s p ⟨addr, n, 0⟩
  | .chunk p => (s.call p).elim s (chunk sb dev s p)
  | .leave p => (s.call p).elim s (leave s p)

def machine : Machine (State π) (Event π) where
  enabled s e := s.halted = none ∧ Possible s e
  next := next sb dev

/-- The file is open for writing at its start, is empty, and nobody writes to it yet. -/
structure Opened (s : State π) : Prop where
  ready : Ready sb s.kernel.fs s.kernel.file.ip
  writable : s.kernel.file.writable = true
  off : s.kernel.file.off = 0
  empty : s.kernel.bytes sb = []
  idle : ∀ p, s.call p = none
  chunks : s.chunks = []
  returned : ∀ p, s.returned p = []
  running : s.halted = none

end Machine

/-- All the chunks, in the order in which they took the lock. -/
def State.written (s : State π) : List Byte := s.chunks.flatMap Prod.snd

/-- The chunks of one process. -/
def State.writtenBy (s : State π) (p : π) : List Byte :=
  (s.chunks.filter fun x => x.1 = p).flatMap Prod.snd

def Call.data (c : Call) : List Byte := bytesOf c.addr c.n.toNat

/-- What a process has asked for so far, with the part of the call it is in. -/
def State.askedBy (s : State π) (p : π) : List Byte :=
  (s.returned p).flatMap (fun x => x.1.data) ++
    (s.call p).elim [] fun c => bytesOf c.addr c.i.toNat

/-- Nothing is lost or overwritten. -/
structure InOrder (sb : Superblock) (s : State π) : Prop where
  contents : s.kernel.bytes sb = s.written
  off : s.kernel.file.off.toNat = s.written.length
  chunks : ∀ x ∈ s.chunks, x.2.length ≤ maxChunk
  lossless : ∀ p, s.writtenBy p = s.askedBy p
  complete : ∀ p, ∀ x ∈ s.returned p, 0 ≤ x.1.n → x.2 = x.1.n

/-! What a step keeps -/

variable {sb : Superblock} {dev : Half → Option (Word → ℤ)} {s t : State π} {p q : π} {c : Call}

structure Kept (sb : Superblock) (s : State π) : Prop where
  ready : Ready sb s.kernel.fs s.kernel.file.ip
  writable : s.kernel.file.writable = true
  inOrder : InOrder sb s
  bound : ∀ p c, s.call p = some c → 0 ≤ c.i ∧ c.i ≤ max c.n 0

theorem Opened.kept (h : Opened sb s) : Kept sb s where
  ready := h.ready
  writable := h.writable
  inOrder :=
    { contents := by rw [h.empty, State.written, h.chunks, List.flatMap_nil]
      off := by rw [h.off, State.written, h.chunks]; rfl
      chunks := by
        intro x hx
        rw [h.chunks] at hx
        cases hx
      lossless := by
        intro p
        rw [State.writtenBy, State.askedBy, h.chunks, h.returned, h.idle]
        rfl
      complete := by
        intro p x hx
        rw [h.returned] at hx
        cases hx }
  bound := by
    intro p c hc
    rw [h.idle] at hc
    cases hc

/-- One process goes on: the file stays, and so do the chunks. -/
theorem Kept.advance (h : Kept sb s) (hk : t.kernel = s.kernel) (hch : t.chunks = s.chunks)
    (p : π) (hcall : ∀ q, q ≠ p → t.call q = s.call q)
    (hret : ∀ q, q ≠ p → t.returned q = s.returned q) (hasked : t.askedBy p = s.askedBy p)
    (hbound : ∀ c, t.call p = some c → 0 ≤ c.i ∧ c.i ≤ max c.n 0)
    (hcomplete : ∀ x ∈ t.returned p, 0 ≤ x.1.n → x.2 = x.1.n) : Kept sb t where
  ready := by
    rw [hk]
    exact h.ready
  writable := by
    rw [hk]
    exact h.writable
  inOrder :=
    { contents := by
        rw [hk, State.written, hch]
        exact h.inOrder.contents
      off := by
        rw [hk, State.written, hch]
        exact h.inOrder.off
      chunks := by
        rw [hch]
        exact h.inOrder.chunks
      lossless := by
        intro q
        have hsame := h.inOrder.lossless q
        rw [State.writtenBy] at hsame ⊢
        rw [hch, hsame]
        by_cases hq : q = p
        · rw [hq, hasked]
        · rw [State.askedBy, State.askedBy, hcall q hq, hret q hq]
      complete := by
        intro q
        by_cases hq : q = p
        · rw [hq]
          exact hcomplete
        · rw [hret q hq]
          exact h.inOrder.complete q }
  bound := by
    intro q c hc
    by_cases hq : q = p
    · rw [hq] at hc
      exact hbound c hc
    · rw [hcall q hq] at hc
      exact h.bound q c hc

theorem enter_kept (h : Kept sb s) (hidle : s.call p = none) (addr : ℕ → Byte) (n : ℤ) :
    Kept sb (enter s p ⟨addr, n, 0⟩) := by
  rw [enter, if_neg (by rw [h.writable]; decide)]
  refine h.advance rfl rfl p ?_ (fun _ _ => rfl) ?_ ?_ (h.inOrder.complete p)
  · intro q hq
    exact Function.update_of_ne hq _ _
  · simp only [State.askedBy, Function.update_self, hidle]
    rfl
  · intro c hc
    simp only [Function.update_self] at hc
    cases hc
    exact ⟨Int.le_refl 0, Int.le_max_right _ _⟩

/-- A call that leaves the loop with all of its data written. -/
theorem leave_kept (h : Kept sb s) (hcall : s.call p = some c) (hi : ¬ c.i < c.n) :
    Kept sb (leave s p c) := by
  obtain ⟨hlow, hhigh⟩ := h.bound p c hcall
  refine h.advance rfl rfl p ?_ ?_ ?_ ?_ ?_
  · intro q hq
    exact Function.update_of_ne hq _ _
  · intro q hq
    exact Function.update_of_ne hq _ _
  · have hnat : c.i.toNat = c.n.toNat := by omega
    simp only [State.askedBy, leave, Function.update_self, hcall, List.flatMap_append,
      List.flatMap_singleton, Call.data, Option.elim_none, Option.elim_some, List.append_nil, hnat]
  · intro d hd
    simp only [leave, Function.update_self] at hd
    cases hd
  · intro x hx hn
    simp only [leave, Function.update_self] at hx
    obtain hx | hx := List.mem_append.mp hx
    · exact h.inOrder.complete p x hx hn
    · cases List.mem_singleton.mp hx
      dsimp only at hn ⊢
      rw [if_pos (by omega)]

omit [DecidableEq π] in
theorem written_took (s : State π) (p : π) (c : Call) (t : Kernel) :
    (took s p c t).written = s.written ++ bytesOf c.rest c.n1.toNat := by
  rw [State.written, took, List.flatMap_append, List.flatMap_singleton]
  rfl

theorem writtenBy_took_self (s : State π) (p : π) (c : Call) (t : Kernel) :
    (took s p c t).writtenBy p = s.writtenBy p ++ bytesOf c.rest c.n1.toNat := by
  simp [State.writtenBy, took, List.filter_append]

theorem writtenBy_took_ne (s : State π) (c : Call) (t : Kernel) (hq : q ≠ p) :
    (took s p c t).writtenBy q = s.writtenBy q := by
  simp [State.writtenBy, took, List.filter_append, hq.symm]

/-- The part of the data that is written, with the next chunk. -/
theorem bytesOf_rest (hlow : 0 ≤ c.i) (m : ℕ) :
    bytesOf c.addr (c.i + m).toNat = bytesOf c.addr c.i.toNat ++ bytesOf c.rest m := by
  have hadd : (c.i + m).toNat = c.i.toNat + m := by omega
  rw [hadd, bytesOf_add]
  rfl

/-- A chunk that is stored at the end of the file. -/
theorem stored_kept (h : Kept sb s) (hcall : s.call p = some c) (hlt : c.i < c.n) {k : Kernel}
    (hs : Stored sb c.rest c.n1.toNat s.kernel k) :
    Kept sb { took s p c k with
      call := Function.update s.call p (some { c with i := c.i + c.n1 }) } := by
  have hmax : maxChunk = 1536 := rfl
  obtain ⟨hlow, hhigh⟩ := h.bound p c hcall
  have hn1 : 0 < c.n1 ∧ c.n1 ≤ maxChunk ∧ c.n1 ≤ c.n - c.i := by
    unfold Call.n1
    omega
  have hnat : ((c.n1.toNat : ℕ) : ℤ) = c.n1 := Int.toNat_of_nonneg (by omega)
  have hlen := length_bytesOf c.rest c.n1.toNat
  have hfile := h.inOrder.contents
  have hoff := h.inOrder.off
  constructor
  · exact hs.ready
  · exact hs.writable.trans h.writable
  · constructor
    · change k.bytes sb = (took s p c k).written
      rw [hs.bytes, hoff, hfile, overwrite_end, written_took]
    · change k.file.off.toNat = (took s p c k).written.length
      rw [hs.off, hoff, written_took, List.length_append, hlen]
    · intro x hx
      obtain hx | hx := List.mem_append.mp hx
      · exact h.inOrder.chunks x hx
      · cases List.mem_singleton.mp hx
        dsimp only
        omega
    · intro q
      change (took s p c k).writtenBy q = _
      by_cases hq : q = p
      · rw [hq, writtenBy_took_self, h.inOrder.lossless p, State.askedBy, State.askedBy]
        simp only [Function.update_self, hcall, Option.elim_some]
        rw [List.append_assoc, ← bytesOf_rest hlow, hnat]
        rfl
      · rw [writtenBy_took_ne _ _ _ hq, h.inOrder.lossless q, State.askedBy, State.askedBy]
        simp only [Function.update_of_ne hq]
        rfl
    · exact h.inOrder.complete
  · intro q d hd
    by_cases hq : q = p
    · simp only [hq, Function.update_self] at hd
      cases hd
      dsimp only
      omega
    · simp only [Function.update_of_ne hq] at hd
      exact h.bound q d hd

theorem chunks_goOn (s : State π) (p : π) (c : Call) (r : ℤ) :
    (goOn s p c r).chunks = s.chunks := by
  unfold goOn
  split
  · rfl
  · split
    · rfl
    · rfl

/-- A chunk that fits is stored, unless the disk is full. -/
theorem chunk_kept {Short : Prop} (h : Kept sb s) (dev : Half → Option (Word → ℤ))
    (hroom : Room sb s.kernel.file.ip Short 4 s.kernel.fs) (hrun : s.halted = none)
    (hcall : s.call p = some c) (hlt : c.i < c.n)
    (hfits : (chunk sb dev s p c).written.length ≤ MAXFILE * BSIZE) :
    Kept sb (chunk sb dev s p c) ∧ ∀ e, (chunk sb dev s p c).halted = some e → Fails Short e := by
  have hmax : maxChunk = 1536 := rfl
  obtain ⟨hlow, hhigh⟩ := h.bound p c hcall
  have hn1 : 0 < c.n1 ∧ c.n1 ≤ maxChunk := by
    unfold Call.n1
    omega
  have hnat : ((c.n1.toNat : ℕ) : ℤ) = c.n1 := Int.toNat_of_nonneg (by omega)
  have hpos : 0 < c.n1.toNat := by omega
  have hle : c.n1.toNat ≤ maxChunk := by omega
  have hspec := writeChunk_spec (k := 0) h.ready dev c.rest hpos hle hroom
  rw [hnat] at hspec
  unfold chunk at hfits ⊢
  cases hw : writeChunk sb dev c.rest c.n1 s.kernel with
  | error e =>
    refine ⟨h.advance rfl rfl p (fun _ _ => rfl) (fun _ _ => rfl) rfl (h.bound p)
      (h.inOrder.complete p), ?_⟩
    rintro _ ⟨⟩
    exact wp_error hspec hw
  | ok x =>
    obtain ⟨r, k⟩ := x
    rw [hw] at hfits
    dsimp only at hfits ⊢
    rw [State.written, chunks_goOn] at hfits
    change (took s p c k).written.length ≤ _ at hfits
    rw [written_took, List.length_append, length_bytesOf] at hfits
    obtain ⟨⟨hout, -, -⟩ | ⟨-, hr, hs⟩, -⟩ := wp_ok hspec hw
    · -- the offset is at the end of the file
      unfold Refuses at hout
      rw [h.inOrder.contents, h.inOrder.off] at hout
      omega
    · rw [goOn, if_neg (by omega), if_neg (by omega), hr]
      refine ⟨stored_kept h hcall hlt hs, fun e he => ?_⟩
      rw [took] at he
      dsimp only at he
      rw [hrun] at he
      cases he

/-- As long as the chunks fit into a file, none is refused. -/
def Sound (sb : Superblock) (s : State π) : Prop :=
  s.written.length ≤ MAXFILE * BSIZE →
    Kept sb s ∧ ∀ e, s.halted = some e → e = outOfBlocks

theorem next_chunk (sb : Superblock) (dev : Half → Option (Word → ℤ)) (hcall : s.call p = some c) :
    next sb dev s (.chunk p) = chunk sb dev s p c := by
  rw [next, hcall]
  rfl

theorem next_leave (sb : Superblock) (dev : Half → Option (Word → ℤ)) (hcall : s.call p = some c) :
    next sb dev s (.leave p) = leave s p c := by
  rw [next, hcall]
  rfl

/-- A call that begins takes no chunk and stops nobody. -/
theorem enter_keeps (s : State π) (p : π) (c : Call) :
    (enter s p c).chunks = s.chunks ∧ (enter s p c).halted = s.halted := by
  unfold enter
  split
  · exact ⟨rfl, rfl⟩
  · exact ⟨rfl, rfl⟩

theorem chunks_chunk (sb : Superblock) (dev : Half → Option (Word → ℤ)) (s : State π) (p : π)
    (c : Call) : (chunk sb dev s p c).chunks = s.chunks ∨
      (chunk sb dev s p c).chunks = s.chunks ++ [(p, bytesOf c.rest c.n1.toNat)] := by
  unfold chunk
  split
  next r k _ =>
    right
    rw [chunks_goOn, took]
  next => exact Or.inl rfl

/-- No chunk is taken back. -/
theorem chunks_next {e : Event π} (hposs : Possible s e) (sb : Superblock)
    (dev : Half → Option (Word → ℤ)) : s.chunks <+: (next sb dev s e).chunks := by
  cases e with
  | filewrite p addr n =>
    rw [next, (enter_keeps s p _).1]
  | chunk p =>
    obtain ⟨c, hcall, -⟩ := hposs
    rw [next_chunk sb dev hcall]
    obtain hsame | hmore := chunks_chunk sb dev s p c
    · rw [hsame]
    · rw [hmore]
      exact List.prefix_append _ _
  | leave p =>
    obtain ⟨c, hcall, -⟩ := hposs
    rw [next_leave sb dev hcall]
    exact List.prefix_rfl

omit [DecidableEq π] in
theorem written_le (h : s.chunks <+: t.chunks) : s.written.length ≤ t.written.length := by
  obtain ⟨rest, hrest⟩ := h
  rw [State.written, State.written, ← hrest, List.flatMap_append, List.length_append]
  exact Nat.le_add_right _ _

theorem step_sound {e : Event π} (h : Sound sb s) (hs : (machine sb dev).Step s e t) :
    Sound sb t := by
  obtain ⟨⟨hrun, hposs⟩, rfl⟩ := hs
  intro hfits
  obtain ⟨hkept, -⟩ := h (Nat.le_trans (written_le (chunks_next hposs sb dev)) hfits)
  have hgoes : ∀ u : State π, u.halted = s.halted → ∀ e, u.halted = some e → e = outOfBlocks := by
    intro u hu e he
    rw [hu, hrun] at he
    cases he
  cases e with
  | filewrite p addr n =>
    exact ⟨enter_kept hkept hposs addr n, hgoes _ (enter_keeps s p _).2⟩
  | chunk p =>
    obtain ⟨c, hcall, hlt⟩ := hposs
    have hnext : (machine sb dev).next s (.chunk p) = chunk sb dev s p c := next_chunk sb dev hcall
    rw [hnext] at hfits ⊢
    obtain ⟨hnew, hfail⟩ := chunk_kept hkept dev (fun (hn : ¬ True) => absurd trivial hn) hrun
      hcall hlt hfits
    exact ⟨hnew, fun e he => (hfail e he).1⟩
  | leave p =>
    obtain ⟨c, hcall, hi⟩ := hposs
    have hnext : (machine sb dev).next s (.leave p) = leave s p c := next_leave sb dev hcall
    rw [hnext]
    exact ⟨leave_kept hkept hcall hi, hgoes _ rfl⟩

/-- In every run in which the chunks fit into a file, the file is their concatenation in the order
in which they took the lock, and nothing but a full disk stops the writers. -/
theorem shared_writes_concatenate {s₀ : State π} (h : Opened sb s₀)
    (dev : Half → Option (Word → ℤ)) {es : List (Event π)}
    (r : Run (machine sb dev).Step (· = s₀) es s) (hfits : s.written.length ≤ MAXFILE * BSIZE) :
    (s.halted = none → InOrder sb s) ∧ ∀ e, s.halted = some e → e = outOfBlocks := by
  have hsound : Sound sb s := by
    refine r.invariant ?_ fun _ _ _ hk hs => step_sound hk hs
    rintro _ rfl _
    refine ⟨h.kept, fun e he => ?_⟩
    rw [h.running] at he
    cases he
  obtain ⟨hkept, hhalted⟩ := hsound hfits
  exact ⟨fun _ => hkept.inOrder, hhalted⟩

/-! A process alone does what filewrite() does. -/

/-- How the call of `p` ends in a run from `s`. -/
structure Returns (sb : Superblock) (dev : Half → Option (Word → ℤ)) (s : State π) (p : π)
    (r : ℤ) (k : Kernel) (es : List (Event π)) : Prop where
  valid : (machine sb dev).Valid s es
  kernel : ((machine sb dev).exec s es).kernel = k
  idle : ((machine sb dev).exec s es).call p = none
  running : ((machine sb dev).exec s es).halted = none
  returned : ∃ c, ((machine sb dev).exec s es).returned p = s.returned p ++ [(c, r)]

theorem Returns.cons {r : ℤ} {k : Kernel} {e : Event π} {es : List (Event π)}
    (hen : (machine sb dev).enabled s e) (hret : (next sb dev s e).returned p = s.returned p)
    (h : Returns sb dev (next sb dev s e) p r k es) : Returns sb dev s p r k (e :: es) where
  valid := ⟨hen, h.valid⟩
  kernel := h.kernel
  idle := h.idle
  running := h.running
  returned := by
    rw [← hret]
    exact h.returned

theorem Returns.last {r : ℤ} {e : Event π} (hen : (machine sb dev).enabled s e)
    (hnext : next sb dev s e = leave t p c) (hgoes : t.halted = none)
    (hret : t.returned p = s.returned p) (hr : r = if c.i = c.n then c.n else -1) :
    Returns sb dev s p r t.kernel [e] := by
  have hexec : (machine sb dev).exec s [e] = leave t p c := hnext
  constructor
  · exact ⟨hen, trivial⟩
  · rw [hexec]
    rfl
  · rw [hexec]
    exact Function.update_self _ _ _
  · rw [hexec]
    exact hgoes
  · refine ⟨c, ?_⟩
    rw [hexec, leave, hr, ← hret]
    exact Function.update_self _ _ _

theorem leave_returns (hrun : s.halted = none) (hcall : s.call p = some c) (hi : ¬ c.i < c.n) :
    Returns sb dev s p (if c.i = c.n then c.n else -1) s.kernel [.leave p] :=
  Returns.last ⟨hrun, c, hcall, hi⟩ (next_leave sb dev hcall) hrun rfl rfl

/-- The rounds that are left, by the bytes that are left. -/
theorem filewriteFrom_returns {addr : ℕ → Byte} {n i j : ℤ} {m : ℕ} {k : Kernel}
    (hrun : s.halted = none) (hcall : s.call p = some ⟨addr, n, i⟩) (hm : (n - i).toNat ≤ m)
    (h : filewriteFrom sb dev addr n m i s.kernel = .ok (j, k)) :
    ∃ es, Returns sb dev s p (if j = n then n else -1) k es := by
  have hmax : maxChunk = 1536 := rfl
  induction m generalizing s i with
  | zero =>
    obtain ⟨rfl, rfl⟩ := pure_ok h
    have hdone : ¬ j < n := by omega
    exact ⟨_, leave_returns hrun hcall hdone⟩
  | succ m ih =>
    unfold filewriteFrom at h
    split at h
    next hlt =>
      obtain ⟨r, t, hchunk, hrest⟩ := bind_ok h
      have hen : (machine sb dev).enabled s (.chunk p) := ⟨hrun, _, hcall, hlt⟩
      have hnext : next sb dev s (.chunk p) =
          goOn (took s p ⟨addr, n, i⟩ t) p ⟨addr, n, i⟩ r := by
        have hsame : writeChunk sb dev (Call.rest ⟨addr, n, i⟩) (Call.n1 ⟨addr, n, i⟩) s.kernel =
            .ok (r, t) := hchunk
        rw [next_chunk sb dev hcall, chunk, hsame]
      by_cases hneg : r < 0
      · rw [if_pos hneg] at hrest
        obtain ⟨rfl, rfl⟩ := pure_ok hrest
        rw [goOn, if_pos hneg] at hnext
        exact ⟨_, Returns.last hen hnext hrun rfl rfl⟩
      · rw [if_neg hneg] at hrest
        by_cases hshort : r ≠ min (n - i) maxChunk
        · rw [if_pos hshort] at hrest
          exact (throw_ok hrest).elim
        · rw [if_neg hshort] at hrest
          have hn1 : ¬ r ≠ Call.n1 ⟨addr, n, i⟩ := hshort
          rw [goOn, if_neg hneg, if_neg hn1] at hnext
          have hkernel : (next sb dev s (.chunk p)).kernel = t := by
            rw [hnext]
            rfl
          rw [← hkernel] at hrest
          obtain ⟨es, hes⟩ := ih (s := next sb dev s (.chunk p)) (i := i + r)
            (by rw [hnext]; exact hrun) (by rw [hnext]; exact Function.update_self _ _ _)
            (by omega) hrest
          refine ⟨_, hes.cons hen ?_⟩
          rw [hnext]
          rfl
    next hge =>
      obtain ⟨rfl, rfl⟩ := pure_ok h
      exact ⟨_, leave_returns hrun hcall hge⟩

/-- What filewrite() returns and leaves behind, a run of the steps does. -/
theorem filewrite_returns (hrun : s.halted = none) (hidle : s.call p = none) {addr : ℕ → Byte}
    {n r : ℤ} {k : Kernel} (h : filewrite sb dev addr n s.kernel = .ok (r, k)) :
    ∃ es, Returns sb dev s p r k es := by
  have hen : (machine sb dev).enabled s (.filewrite p addr n) := ⟨hrun, hidle⟩
  have hnext : next sb dev s (.filewrite p addr n) = enter s p ⟨addr, n, 0⟩ := rfl
  rw [filewrite, run_bind (get_run _)] at h
  by_cases hw : s.kernel.file.writable = false
  · rw [if_pos hw] at h
    obtain ⟨rfl, rfl⟩ := pure_ok h
    rw [enter, if_pos hw] at hnext
    have hexec : (machine sb dev).exec s [.filewrite p addr n] = _ := hnext
    refine ⟨[.filewrite p addr n], ⟨⟨hen, trivial⟩, ?_, ?_, ?_, ⟨addr, n, 0⟩, ?_⟩⟩
    · rw [hexec]
    · rw [hexec]
      exact hidle
    · rw [hexec]
      exact hrun
    · rw [hexec]
      exact Function.update_self _ _ _
  · rw [if_neg hw] at h
    rw [enter, if_neg hw] at hnext
    obtain ⟨j, t, hloop, hret⟩ := bind_ok h
    obtain ⟨rfl, rfl⟩ := pure_ok hret
    have hkernel : (next sb dev s (.filewrite p addr n)).kernel = s.kernel := by rw [hnext]
    rw [← hkernel] at hloop
    obtain ⟨es, hes⟩ := filewriteFrom_returns (p := p) (by rw [hnext]; exact hrun)
      (by rw [hnext]; exact Function.update_self _ _ _) (by omega) hloop
    refine ⟨_, hes.cons hen ?_⟩
    rw [hnext]

/-! Two processes on an empty file. -/

theorem emptyFile_ready : Ready smallDisk (smallWith T_FILE) 2 where
  consistent := smallWith_consistent (by decide)
  inum := by decide
  noHole := smallWith_noHole T_FILE
  type_eq := rfl

/-- One process has opened the file, and another one shares it. -/
def sharing : State (Fin 2) :=
  ⟨⟨smallWith T_FILE, ⟨true, 2, 0⟩⟩, fun _ => none, [], fun _ => [], none⟩

theorem sharing_opened : Opened smallDisk sharing :=
  ⟨emptyFile_ready, rfl, rfl, rfl, fun _ => rfl, rfl, fun _ => rfl, rfl⟩

/-- Both begin to write. -/
def begun : State (Fin 2) :=
  enter (enter sharing p0 ⟨fun _ => 65, 5, 0⟩) p1 ⟨fun _ => 66, 2000, 0⟩

def sharingRun : List (Event (Fin 2)) :=
  [.filewrite p0 (fun _ => 65) 5, .filewrite p1 (fun _ => 66) 2000, .chunk p1]

/-- The second process has taken the lock first. -/
def shared : State (Fin 2) := chunk smallDisk (fun _ => none) begun p1 ⟨fun _ => 66, 2000, 0⟩

theorem sharing_run : Run (machine smallDisk fun _ => none).Step (· = sharing) sharingRun shared := by
  have hvalid : (machine smallDisk fun _ => none).Valid sharing sharingRun :=
    ⟨⟨rfl, rfl⟩, ⟨rfl, rfl⟩, ⟨rfl, ⟨fun _ => 66, 2000, 0⟩, rfl, by decide⟩, trivial⟩
  have hcall : begun.call p1 = some ⟨fun _ => 66, 2000, 0⟩ := rfl
  have hshared : (machine smallDisk fun _ => none).exec sharing sharingRun = shared :=
    next_chunk smallDisk _ hcall
  rw [← hshared]
  exact hvalid.run

theorem shared_fits : shared.written.length ≤ MAXFILE * BSIZE := by
  have hbig : MAXFILE * BSIZE = 71680 := rfl
  rw [State.written]
  obtain h | h := chunks_chunk smallDisk (fun _ => none) begun p1 ⟨fun _ => 66, 2000, 0⟩
  · rw [shared, h]
    exact Nat.zero_le _
  · have hn1 : (Call.n1 ⟨fun _ => 66, 2000, 0⟩).toNat = 1536 := rfl
    have hnone : begun.chunks = [] := rfl
    rw [shared, h, hnone, List.nil_append, List.flatMap_singleton, length_bytesOf, hn1, hbig]
    decide

theorem shared_running : shared.halted = none := by
  have hkept : Kept smallDisk begun :=
    enter_kept (enter_kept sharing_opened.kept rfl _ _) rfl _ _
  have hroom : Room smallDisk 2 False 4 (smallWith T_FILE) := by
    intro _
    have hle := absent_le smallDisk (smallWith T_FILE) (.addr 2 NDIRECT)
    have hfree := smallWith_free T_FILE
    omega
  obtain ⟨-, hfail⟩ := chunk_kept hkept (fun _ => none) hroom rfl rfl (by decide) shared_fits
  cases hhalted : shared.halted with
  | none => rfl
  | some e => exact (hfail e hhalted).2.elim

theorem shared_writes_concatenate_two : shared.halted = none ∧ InOrder smallDisk shared :=
  ⟨shared_running,
    (shared_writes_concatenate sharing_opened _ sharing_run shared_fits).1 shared_running⟩

end SharedWrites

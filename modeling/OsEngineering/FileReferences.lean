import OsEngineering.FileTable
import Mathlib.Data.Fintype.Prod
import Mathlib.Data.List.Perm.Basic

/-! What the operations on open files keep: the counts, with the references a system call
has in hand, and the pages of the pipes. -/
namespace FileReferences

open FaultState FiniteTally KernelParams TransitionSystem FileTable

def slots (s : Kernel) : ProcNo × Fd → Option FileNo := fun x => (s.procs x.1).ofile x.2

/-- `hand` are the references of the running system call. -/
structure Counted (hand : List FileNo) (s : Kernel) : Prop where
  refs : ∀ f, (s.files f).ref = tally (slots s) f + hand.count f
  blank : ∀ f, (s.files f).ref = 0 → (s.files f).type = .none
  closed : ∀ p, (s.procs p).state = .unused ∨ (s.procs p).state = .zombie →
    ∀ fd, (s.procs p).ofile fd = none

/-- `f` is the end of the pipe in `p` for writing or for reading. -/
def End (s : Kernel) (p : Page) (writable : Bool) (f : FileNo) : Prop :=
  ∃ readable, (s.files f).type = .pipe p readable writable

def PipeOpen (s : Kernel) (p : Page) : Prop := ∃ writable f, End s p writable f

def isopen (x : Pipe) (writable : Bool) : Bool := if writable then x.writeopen else x.readopen

structure Pages (pool : List Page) (s : Kernel) : Prop where
  one : ∀ p w f g, End s p w f → End s p w g → f = g
  flags : ∀ p, PipeOpen s p → ∀ w, isopen (s.pipes p) w = true ↔ ∃ f, End s p w f
  nodup : (s.free ++ s.others).Nodup
  apart : ∀ p, PipeOpen s p → p ∉ s.free ++ s.others
  pool : ∀ p, p ∈ pool ↔ p ∈ s.free ++ s.others ∨ PipeOpen s p

structure Sound (pool : List Page) (hand : List FileNo) (s : Kernel) : Prop where
  counted : Counted hand s
  pages : Pages pool s

variable {pool : List Page} {hand : List FileNo} {s t : Kernel} {p : ProcNo} {fd : Fd}
  {f g : FileNo}

/-! Updates. -/

@[simp] theorem setFile_self (s : Kernel) (f : FileNo) (x : File) : (s.setFile f x).files f = x :=
  Function.update_self ..
theorem setFile_of_ne (s : Kernel) (x : File) (h : g ≠ f) : (s.setFile f x).files g = s.files g :=
  Function.update_of_ne h ..
@[simp] theorem setFd_self (s : Kernel) (p : ProcNo) (fd : Fd) (x : Option FileNo) :
    ((s.setFd p fd x).procs p).ofile fd = x := by
  simp only [Kernel.setFd, Function.update_self]
theorem setFd_of_ne (s : Kernel) (p : ProcNo) {fd fd' : Fd} (x : Option FileNo) (h : fd' ≠ fd) :
    ((s.setFd p fd x).procs p).ofile fd' = (s.procs p).ofile fd' := by
  simp only [Kernel.setFd, Function.update_self, Function.update_of_ne h]
theorem setFd_proc_of_ne (s : Kernel) {p q : ProcNo} (fd : Fd) (x : Option FileNo) (h : q ≠ p) :
    (s.setFd p fd x).procs q = s.procs q := Function.update_of_ne h ..
theorem setFd_state (s : Kernel) (p : ProcNo) (fd : Fd) (x : Option FileNo) (q : ProcNo) :
    ((s.setFd p fd x).procs q).state = (s.procs q).state := by
  by_cases hq : q = p
  · subst hq
    simp only [Kernel.setFd, Function.update_self]
  · rw [setFd_proc_of_ne s fd x hq]

theorem slots_setFd (s : Kernel) (p : ProcNo) (fd : Fd) (x : Option FileNo) :
    slots (s.setFd p fd x) = Function.update (slots s) (p, fd) x := by
  funext ⟨q, e⟩
  by_cases hq : q = p
  · subst hq
    by_cases he : e = fd
    · subst he
      rw [Function.update_self]
      exact setFd_self s q e x
    · rw [Function.update_of_ne fun heq => he (Prod.mk.inj heq).2]
      exact setFd_of_ne s q x he
  · rw [Function.update_of_ne fun heq => hq (Prod.mk.inj heq).1]
    exact congrArg (fun r => r.ofile e) (setFd_proc_of_ne s fd x hq)

theorem slots_setState (s : Kernel) (p : ProcNo) (x : ProcState) :
    slots (s.setState p x) = slots s := by
  funext ⟨q, e⟩
  by_cases hq : q = p
  · subst hq
    simp only [slots, Kernel.setState, Function.update_self]
  · simp only [slots, Kernel.setState, Function.update_of_ne hq]

/-! Counts. -/

/-- Clearing a descriptor leaves its reference in hand. -/
theorem Counted.clearFd (k : Counted hand s) (h : (s.procs p).ofile fd = some f) :
    Counted (f :: hand) (s.setFd p fd none) := by
  refine ⟨fun g => ?_, k.blank, fun q hq e => ?_⟩
  · have ht := tally_update (slots s) (p, fd) none g
    have hslot : slots s (p, fd) = some f := h
    have hnone : (none : Option FileNo) ≠ some g := nofun
    rw [hslot, if_neg hnone] at ht
    rw [slots_setFd, List.count_cons]
    change (s.files g).ref = _
    rw [k.refs g]
    by_cases hfg : f = g
    · rw [hfg, if_pos rfl] at ht
      rw [hfg, if_pos (beq_self_eq_true g)]
      omega
    · rw [if_neg fun heq => hfg (Option.some.inj heq)] at ht
      rw [if_neg (by simpa using hfg)]
      omega
  · rw [setFd_state] at hq
    by_cases hqp : q = p
    · subst hqp
      by_cases he : e = fd
      · rw [he, setFd_self]
      · rw [setFd_of_ne s q _ he]
        exact k.closed q hq e
    · rw [setFd_proc_of_ne s fd _ hqp]
      exact k.closed q hq e

/-- A free descriptor takes over a reference in hand. -/
theorem Counted.fillFd (k : Counted (f :: hand) s) (h : (s.procs p).ofile fd = none)
    (hp : (s.procs p).state ≠ .unused ∧ (s.procs p).state ≠ .zombie) :
    Counted hand (s.setFd p fd (some f)) := by
  refine ⟨fun g => ?_, k.blank, fun q hq e => ?_⟩
  · have ht := tally_update (slots s) (p, fd) (some f) g
    have hslot : slots s (p, fd) = none := h
    have hnone : (none : Option FileNo) ≠ some g := nofun
    have hk := k.refs g
    rw [hslot, if_neg hnone] at ht
    rw [List.count_cons] at hk
    rw [slots_setFd]
    change (s.files g).ref = _
    by_cases hfg : f = g
    · rw [hfg, if_pos rfl] at ht
      rw [hfg, if_pos (beq_self_eq_true g)] at hk
      rw [hfg]
      omega
    · rw [if_neg fun heq => hfg (Option.some.inj heq)] at ht
      rw [if_neg (by simpa using hfg)] at hk
      omega
  · rw [setFd_state] at hq
    have hqp : q ≠ p := by
      rintro rfl
      rcases hq with hq | hq
      · exact hp.1 hq
      · exact hp.2 hq
    rw [setFd_proc_of_ne s fd _ hqp]
    exact k.closed q hq e

/-- A file changes together with the references in hand. -/
theorem Counted.setFile {hand' : List FileNo} (k : Counted hand s) {x : File}
    (hx : x.ref + hand.count f = (s.files f).ref + hand'.count f)
    (hother : ∀ g, g ≠ f → hand'.count g = hand.count g) (hnone : x.ref = 0 → x.type = .none) :
    Counted hand' (s.setFile f x) := by
  refine ⟨fun g => ?_, fun g hg => ?_, k.closed⟩
  · have hslots : slots (s.setFile f x) = slots s := rfl
    have hk := k.refs g
    rw [hslots]
    by_cases hgf : g = f
    · subst hgf
      rw [setFile_self]
      omega
    · rw [setFile_of_ne s x hgf, hother g hgf]
      exact hk
  · by_cases hgf : g = f
    · subst hgf
      rw [setFile_self] at hg ⊢
      exact hnone hg
    · rw [setFile_of_ne s x hgf] at hg ⊢
      exact k.blank g hg

theorem count_cons_ne (hand : List FileNo) (h : g ≠ f) : (f :: hand).count g = hand.count g :=
  List.count_cons_of_ne h.symm

theorem Counted.pos (k : Counted hand s) (h : f ∈ hand) : 0 < (s.files f).ref := by
  rw [k.refs f]
  have hc := List.count_pos_iff.mpr h
  omega

theorem Counted.pos_of_fd (k : Counted hand s) (h : (s.procs p).ofile fd = some f) :
    0 < (s.files f).ref := by
  rw [k.refs f]
  have hc := tally_pos (f := slots s) (x := (p, fd)) h
  omega

theorem Counted.setState (k : Counted hand s) {x : ProcState}
    (hx : x = .unused ∨ x = .zombie → ∀ e, (s.procs p).ofile e = none) :
    Counted hand (s.setState p x) := by
  refine ⟨fun g => ?_, k.blank, fun q hq e => ?_⟩
  · rw [slots_setState]
    exact k.refs g
  · by_cases hqp : q = p
    · subst hqp
      simp only [Kernel.setState, Function.update_self] at hq ⊢
      exact hx hq e
    · simp only [Kernel.setState, Function.update_of_ne hqp] at hq ⊢
      exact k.closed q hq e

/-! Pages. -/

theorem Pages.congr (k : Pages pool s) (hend : ∀ q w e, End t q w e ↔ End s q w e)
    (hpipes : t.pipes = s.pipes) (hmem : t.free ++ t.others = s.free ++ s.others) :
    Pages pool t := by
  have hopen : ∀ q, PipeOpen t q ↔ PipeOpen s q := by
    intro q
    simp only [PipeOpen, hend]
  constructor
  · intro q w e e' he he'
    exact k.one q w e e' ((hend q w e).mp he) ((hend q w e').mp he')
  · intro q hq w
    rw [hpipes]
    simp only [hend]
    exact k.flags q ((hopen q).mp hq) w
  · rw [hmem]
    exact k.nodup
  · intro q hq
    rw [hmem]
    exact k.apart q ((hopen q).mp hq)
  · intro q
    rw [hmem, hopen]
    exact k.pool q

/-- Changes that make no file an end of a pipe, and no end anything else. -/
theorem end_setFile {x : File} (hx : ∀ q r w, x.type = .pipe q r w ↔ (s.files f).type = .pipe q r w)
    (q : Page) (w : Bool) (e : FileNo) : End (s.setFile f x) q w e ↔ End s q w e := by
  by_cases he : e = f
  · subst he
    simp only [End, setFile_self, hx]
  · simp only [End, setFile_of_ne s x he]

/-- pipeclose() for an end whose file has been reset. -/
def closeEnd (s : Kernel) (q : Page) (w : Bool) : Kernel :=
  let t := s.setPipe q ((s.pipes q).close w)
  if (t.pipes q).readopen = false ∧ (t.pipes q).writeopen = false then
    { t with free := q :: t.free }
  else t

theorem close_iff (x : Pipe) (w : Bool) :
    (x.close w).readopen = false ∧ (x.close w).writeopen = false ↔ isopen x (!w) = false := by
  cases w
  · exact and_iff_right rfl
  · exact and_iff_left rfl

theorem isopen_close (x : Pipe) (w v : Bool) :
    isopen (x.close w) v = if v = w then false else isopen x v := by
  cases w <;> cases v <;> rfl

theorem closeEnd_eq (s : Kernel) (q : Page) (w : Bool) : closeEnd s q w =
    { s with
      pipes := Function.update s.pipes q ((s.pipes q).close w)
      free := if isopen (s.pipes q) (!w) = false then q :: s.free else s.free } := by
  have hself : (s.setPipe q ((s.pipes q).close w)).pipes q = (s.pipes q).close w :=
    Function.update_self ..
  simp only [closeEnd, hself, close_iff]
  split <;> rfl

theorem closeEnd_fields (s : Kernel) (q : Page) (w : Bool) :
    (closeEnd s q w).files = s.files ∧ (closeEnd s q w).procs = s.procs ∧
      (closeEnd s q w).others = s.others ∧
      (closeEnd s q w).pipes = Function.update s.pipes q ((s.pipes q).close w) ∧
      (closeEnd s q w).free = if isopen (s.pipes q) (!w) = false then q :: s.free else s.free := by
  rw [closeEnd_eq]
  exact ⟨rfl, rfl, rfl, rfl, rfl⟩

theorem closeEnd_setFd (s : Kernel) (q : Page) (w : Bool) (p : ProcNo) (fd : Fd)
    (x : Option FileNo) : closeEnd (s.setFd p fd x) q w = (closeEnd s q w).setFd p fd x := by
  rw [closeEnd_eq, closeEnd_eq]
  rfl

theorem Pages.closeEnd (k : Pages pool s) {q : Page} {r w : Bool}
    (hf : (s.files f).type = .pipe q r w) :
    Pages pool (closeEnd (s.setFile f ⟨0, .none⟩) q w) := by
  obtain ⟨hfiles, -, hothers, hpipes, hfree⟩ := closeEnd_fields (s.setFile f ⟨0, .none⟩) q w
  generalize FileReferences.closeEnd (s.setFile f ⟨0, .none⟩) q w = t at *
  have hmine : End s q w f := ⟨r, hf⟩
  have hopenq : PipeOpen s q := ⟨w, f, hmine⟩
  have hend : ∀ q' v e, End t q' v e ↔ End s q' v e ∧ e ≠ f := by
    intro q' v e
    simp only [End, hfiles]
    by_cases he : e = f
    · subst he
      rw [setFile_self]
      exact iff_of_false (fun ⟨r', h⟩ => nomatch h) (fun h => h.2 rfl)
    · rw [setFile_of_ne s _ he]
      exact (and_iff_left he).symm
  have hkey : ∀ {q' v}, End s q' v f → q' = q ∧ v = w := by
    rintro q' v ⟨r', h⟩
    rw [hf] at h
    injection h with h1 _ h3
    exact ⟨h1.symm, h3.symm⟩
  have hopen_ne : ∀ {q'}, q' ≠ q → (PipeOpen t q' ↔ PipeOpen s q') := by
    intro q' hq'
    constructor
    · rintro ⟨v, e, he⟩
      exact ⟨v, e, ((hend q' v e).mp he).1⟩
    · rintro ⟨v, e, he⟩
      refine ⟨v, e, (hend q' v e).mpr ⟨he, ?_⟩⟩
      rintro rfl
      exact hq' (hkey he).1
  -- the pipe stays open as long as its other end is
  have hopen_q : PipeOpen t q ↔ isopen (s.pipes q) (!w) = true := by
    rw [k.flags q hopenq (!w)]
    constructor
    · rintro ⟨v, e, he⟩
      obtain ⟨he, hne⟩ := (hend q v e).mp he
      refine ⟨e, ?_⟩
      have hv : v = !w := by
        by_contra hv
        have hvw : v = w := by
          cases v <;> cases w <;> simp_all
        subst hvw
        exact hne (k.one q v e f he hmine)
      exact hv ▸ he
    · rintro ⟨e, he⟩
      refine ⟨!w, e, (hend q _ e).mpr ⟨he, ?_⟩⟩
      rintro rfl
      have hw := (hkey he).2
      cases w <;> exact absurd hw nofun
  have hpipes_ne : ∀ {q'}, q' ≠ q → t.pipes q' = s.pipes q' := by
    intro q' hq'
    rw [hpipes]
    exact Function.update_of_ne hq' ..
  have hpipes_q : t.pipes q = (s.pipes q).close w := by
    rw [hpipes]
    exact Function.update_self ..
  have hsame : (s.setFile f ⟨0, .none⟩).pipes = s.pipes := rfl
  have hmem : ∀ q', q' ∈ t.free ++ t.others ↔
      q' ∈ s.free ++ s.others ∨ q' = q ∧ ¬ PipeOpen t q := by
    intro q'
    rw [hfree, hothers, hsame, hopen_q, Bool.not_eq_true]
    change q' ∈ (if _ then q :: s.free else s.free) ++ s.others ↔ _
    split
    · next h =>
      rw [List.cons_append, List.mem_cons, and_iff_left h]
      exact or_comm
    · next h =>
      exact (or_iff_left fun hq => h hq.2).symm
  constructor
  · intro q' v e e' he he'
    exact k.one q' v e e' ((hend q' v e).mp he).1 ((hend q' v e').mp he').1
  · intro q' hq' v
    by_cases hqq : q' = q
    · subst hqq
      rw [hpipes_q, isopen_close]
      by_cases hv : v = w
      · subst hv
        rw [if_pos rfl]
        refine iff_of_false nofun ?_
        rintro ⟨e, he⟩
        obtain ⟨he, hne⟩ := (hend q' v e).mp he
        exact hne (k.one q' v e f he hmine)
      · rw [if_neg hv, k.flags q' hopenq v]
        refine exists_congr fun e => ?_
        rw [hend]
        refine (and_iff_left_of_imp ?_).symm
        rintro he rfl
        exact hv (hkey he).2
    · rw [hpipes_ne hqq, k.flags q' ((hopen_ne hqq).mp hq') v]
      refine exists_congr fun e => ?_
      rw [hend]
      refine (and_iff_left_of_imp ?_).symm
      rintro he rfl
      exact hqq (hkey he).1
  · rw [hfree, hothers, hsame]
    change ((if _ then q :: s.free else s.free) ++ s.others).Nodup
    split
    · exact List.nodup_cons.mpr ⟨k.apart q hopenq, k.nodup⟩
    · exact k.nodup
  · intro q' hq' hin
    rcases (hmem q').mp hin with hin | ⟨rfl, hno⟩
    · by_cases hqq : q' = q
      · subst hqq
        exact k.apart q' hopenq hin
      · exact k.apart q' ((hopen_ne hqq).mp hq') hin
    · exact hno hq'
  · intro q'
    rw [k.pool q', hmem]
    by_cases hqq : q' = q
    · subst hqq
      refine iff_of_true (Or.inr hopenq) ?_
      by_cases ho : PipeOpen t q'
      · exact Or.inr ho
      · exact Or.inl (Or.inr ⟨rfl, ho⟩)
    · rw [hopen_ne hqq, or_iff_left fun h : q' = q ∧ _ => hqq h.1]

/-- A new pipe in the first free page. -/
def newPipe (s : Kernel) (q : Page) (free : List Page) (f0 f1 : FileNo) : Kernel :=
  ((({ s with free := free }).setPipe q ⟨true, true⟩).setFile f0
    ⟨(s.files f0).ref, .pipe q true false⟩).setFile f1 ⟨(s.files f1).ref, .pipe q false true⟩

theorem Pages.newPipe (k : Pages pool s) {q : Page} {free : List Page} {f0 f1 : FileNo}
    (hfree : s.free = q :: free) (h0 : (s.files f0).type = .none) (h1 : (s.files f1).type = .none)
    (hne : f0 ≠ f1) : Pages pool (newPipe s q free f0 f1) := by
  have hq : q ∈ s.free ++ s.others := by
    rw [hfree]
    exact List.mem_cons_self
  have hclosed : ¬ PipeOpen s q := fun h => k.apart q h hq
  have hend : ∀ q' w e, End (FileReferences.newPipe s q free f0 f1) q' w e ↔ End s q' w e ∨
      q' = q ∧ (w = false ∧ e = f0 ∨ w = true ∧ e = f1) := by
    intro q' w e
    by_cases he1 : e = f1
    · subst he1
      have hself : (FileReferences.newPipe s q free f0 e).files e =
          ⟨(s.files e).ref, .pipe q false true⟩ := setFile_self ..
      constructor
      · rintro ⟨r, h⟩
        rw [hself] at h
        injection h with h2 _ h4
        exact Or.inr ⟨h2.symm, Or.inr ⟨h4.symm, rfl⟩⟩
      · rintro (⟨r, h⟩ | ⟨rfl, ⟨-, h⟩ | ⟨rfl, -⟩⟩)
        · rw [h1] at h
          exact absurd h nofun
        · exact absurd h.symm hne
        · exact ⟨false, by rw [hself]⟩
    · by_cases he0 : e = f0
      · subst he0
        have hself : (FileReferences.newPipe s q free e f1).files e =
            ⟨(s.files e).ref, .pipe q true false⟩ := by
          rw [FileReferences.newPipe, setFile_of_ne _ _ hne, setFile_self]
        constructor
        · rintro ⟨r, h⟩
          rw [hself] at h
          injection h with h2 _ h4
          exact Or.inr ⟨h2.symm, Or.inl ⟨h4.symm, rfl⟩⟩
        · rintro (⟨r, h⟩ | ⟨rfl, ⟨rfl, -⟩ | ⟨-, h⟩⟩)
          · rw [h0] at h
            exact absurd h nofun
          · exact ⟨true, by rw [hself]⟩
          · exact absurd h hne
      · have hsame : (FileReferences.newPipe s q free f0 f1).files e = s.files e := by
          rw [FileReferences.newPipe, setFile_of_ne _ _ he1, setFile_of_ne _ _ he0]
          rfl
        rw [End, End, hsame]
        refine (or_iff_left ?_).symm
        rintro ⟨-, ⟨-, h⟩ | ⟨-, h⟩⟩
        · exact he0 h
        · exact he1 h
  have hold : ∀ {q'}, q' ≠ q → ∀ w e, End (FileReferences.newPipe s q free f0 f1) q' w e ↔
      End s q' w e := fun hq' w e => (hend _ w e).trans (or_iff_left fun h => hq' h.1)
  have hopen : ∀ {q'}, q' ≠ q → (PipeOpen (FileReferences.newPipe s q free f0 f1) q' ↔
      PipeOpen s q') := by
    intro q' hq'
    simp only [PipeOpen, hold hq']
  have hopen_q : PipeOpen (FileReferences.newPipe s q free f0 f1) q :=
    ⟨false, f0, (hend q _ _).mpr (Or.inr ⟨rfl, Or.inl ⟨rfl, rfl⟩⟩)⟩
  have hpipes : ∀ {q'}, q' ≠ q → (FileReferences.newPipe s q free f0 f1).pipes q' = s.pipes q' :=
    fun hq' => Function.update_of_ne hq' ..
  have hpipes_q : (FileReferences.newPipe s q free f0 f1).pipes q = ⟨true, true⟩ :=
    Function.update_self ..
  have hmem : s.free ++ s.others = q :: (free ++ s.others) := by rw [hfree, List.cons_append]
  have hnd := k.nodup
  rw [hmem, List.nodup_cons] at hnd
  constructor
  · intro q' w e e' he he'
    by_cases hqq : q' = q
    · subst hqq
      rcases (hend q' w e).mp he with he | ⟨-, he⟩
      · exact absurd ⟨w, e, he⟩ hclosed
      rcases (hend q' w e').mp he' with he' | ⟨-, he'⟩
      · exact absurd ⟨w, e', he'⟩ hclosed
      rcases he with ⟨rfl, rfl⟩ | ⟨rfl, rfl⟩ <;> rcases he' with ⟨h, rfl⟩ | ⟨h, rfl⟩
      · rfl
      · exact absurd h nofun
      · exact absurd h nofun
      · rfl
    · exact k.one q' w e e' ((hold hqq w e).mp he) ((hold hqq w e').mp he')
  · intro q' hq' w
    by_cases hqq : q' = q
    · subst hqq
      rw [hpipes_q]
      cases w with
      | false => exact iff_of_true rfl ⟨f0, (hend q' _ _).mpr (Or.inr ⟨rfl, Or.inl ⟨rfl, rfl⟩⟩)⟩
      | true => exact iff_of_true rfl ⟨f1, (hend q' _ _).mpr (Or.inr ⟨rfl, Or.inr ⟨rfl, rfl⟩⟩)⟩
    · rw [hpipes hqq]
      simp only [hold hqq]
      exact k.flags q' ((hopen hqq).mp hq') w
  · exact hnd.2
  · intro q' hq' hin
    change q' ∈ free ++ s.others at hin
    by_cases hqq : q' = q
    · subst hqq
      exact hnd.1 hin
    · refine k.apart q' ((hopen hqq).mp hq') ?_
      rw [hmem]
      exact List.mem_cons_of_mem q hin
  · intro q'
    rw [k.pool q', hmem]
    change _ ↔ q' ∈ free ++ s.others ∨ _
    by_cases hqq : q' = q
    · subst hqq
      exact iff_of_true (Or.inl List.mem_cons_self) (Or.inr hopen_q)
    · rw [List.mem_cons, or_iff_right hqq, hopen hqq]

/-- Pages go between kalloc() and its other users. -/
theorem Pages.trade (k : Pages pool s) {free others : List Page}
    (h : (free ++ others).Perm (s.free ++ s.others)) :
    Pages pool { s with free := free, others := others } :=
  ⟨k.one, k.flags, h.nodup_iff.mpr k.nodup, fun q hq hin => k.apart q hq (h.mem_iff.mp hin),
    fun q => (k.pool q).trans (or_congr_left h.mem_iff.symm)⟩

end FileReferences

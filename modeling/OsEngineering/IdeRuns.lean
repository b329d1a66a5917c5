import OsEngineering.IdeQueue
import OsEngineering.BufferCoherence

/-! The request queue of the driver over whole runs. -/
namespace IdeRuns

open TransitionSystem LinkedQueue IdeQueue
open BufferCache (Buf BufNo Dev NBUF put)
open KernelParams (BlockNo)

variable {π D : Type*}

/-- The buffer and the number of the call a process is in. -/
def pending : Call → Option (BufNo × ℕ)
  | .outside => none
  | .asleep b n | .woken b n => some (b, n)

/-- What holds of the queue `l`. -/
structure Queued (s : State π D) (l : List BufNo) : Prop where
  queue : Holds s.queue l
  device : s.device = l.head?.map fun b => command (s.buf b)
  order : s.arrived.map Prod.snd = s.completed ++ l
  caller : ∀ b ∈ l, ∃ p n, pending (s.call p) = some (b, n) ∧ s.completed.length ≤ n
  number : ∀ p b n, pending (s.call p) = some (b, n) → s.arrived[n]? = some (p, b)
  done : ∀ p b n, pending (s.call p) = some (b, n) →
    (Done (s.buf b) ↔ n < s.completed.length)
  apart : ∀ p q b n m, pending (s.call p) = some (b, n) → pending (s.call q) = some (b, m) →
    p = q
  asleep : ∀ p b n, s.call p = .asleep b n → s.completed.length ≤ n
  returned : ∀ n ∈ s.returned, n < s.completed.length
  ended : s.halted ≠ some .endless

variable {s t : State π D} {l : List BufNo} {p : π} {b c : BufNo} {n : ℕ}

theorem on_of_pending {c : Call} (h : pending c = some (b, n)) : c.on = some b := by
  cases c with
  | outside => cases h
  | asleep b' n' =>
    obtain ⟨rfl, -⟩ := Prod.mk.inj (Option.some.inj h)
    rfl
  | woken b' n' =>
    obtain ⟨rfl, -⟩ := Prod.mk.inj (Option.some.inj h)
    rfl

theorem Queued.not_mem (h : Queued s l) (hb : Free s b) : b ∉ l := by
  intro hmem
  obtain ⟨p, n, hp, -⟩ := h.caller b hmem
  exact hb p (on_of_pending hp)

/-- The buffer that arrived as number `n`, in the queue or before it. -/
theorem Queued.arrival (h : Queued s l) (hp : pending (s.call p) = some (b, n)) :
    (s.completed ++ l)[n]? = some b := by
  rw [← h.order, List.getElem?_map, h.number p b n hp]
  rfl

theorem Queued.halt (h : Queued s l) (msg : String) :
    Queued { s with halted := some (.panic msg) } l :=
  { queue := h.queue
    device := h.device
    order := h.order
    caller := h.caller
    number := h.number
    done := h.done
    apart := h.apart
    asleep := h.asleep
    returned := h.returned
    ended := nofun }

/-- The number of the call whose buffer is at the head of the queue. -/
theorem Queued.head_of_number (h : Queued s (b :: l))
    (hp : pending (s.call p) = some (c, s.completed.length)) : c = b := by
  have harrived := h.arrival hp
  rw [List.getElem?_append_right (Nat.le_refl _), Nat.sub_self] at harrived
  exact (Option.some.inj harrived).symm

theorem Queued.number_of_head (h : Queued s (b :: l)) (hp : pending (s.call p) = some (b, n)) :
    n = s.completed.length := by
  obtain ⟨q, m, hq, hm⟩ := h.caller b List.mem_cons_self
  obtain rfl := h.apart p q b n m hp hq
  obtain ⟨-, rfl⟩ := Prod.mk.inj (Option.some.inj (hp.symm.trans hq))
  have harrived := h.arrival hp
  rw [List.getElem?_append_right hm] at harrived
  cases hk : n - s.completed.length with
  | zero => omega
  | succ k =>
    rw [hk, List.getElem?_cons_succ] at harrived
    exact absurd (List.mem_of_getElem? harrived) (List.nodup_cons.mp h.queue.nodup).1

theorem pending_wakeup (s : State π D) (b : BufNo) (p : π) :
    pending ((wakeup s b).call p) = pending (s.call p) := by
  simp only [wakeup]
  cases s.call p with
  | outside => rfl
  | asleep c n =>
    by_cases hc : c = b
    · simp only [if_pos hc]
      rfl
    · simp only [if_neg hc]
  | woken c n => rfl

theorem asleep_of_wakeup (h : (wakeup s b).call p = .asleep c n) :
    s.call p = .asleep c n ∧ c ≠ b := by
  simp only [wakeup] at h
  cases hp : s.call p with
  | outside =>
    rw [hp] at h
    cases h
  | asleep d m =>
    rw [hp] at h
    by_cases hd : d = b
    · simp only [if_pos hd] at h
      cases h
    · simp only [if_neg hd] at h
      cases h
      exact ⟨rfl, hd⟩
  | woken d m =>
    rw [hp] at h
    cases h

/-- The head of the queue is finished, and the next command is out. -/
theorem Queued.complete (h : Queued s (b :: l)) {x : Buf D} (hx : Done x)
    (ht : t = { wakeup { s with
      buf := Function.update s.buf b x
      queue := s.queue.pop b
      completed := s.completed ++ [b] } b with
        disk := t.disk, device := l.head?.map fun c => command (s.buf c) }) : Queued t l := by
  have hbuf : ∀ c, c ≠ b → t.buf c = s.buf c := by
    intro c hc
    rw [ht]
    exact Function.update_of_ne hc _ _
  have hself : t.buf b = x := by
    rw [ht]
    exact Function.update_self _ _ _
  have hpending : ∀ p, pending (t.call p) = pending (s.call p) := by
    intro p
    rw [ht]
    exact pending_wakeup _ b p
  have hlength : t.completed.length = s.completed.length + 1 := by
    rw [ht]
    exact List.length_append
  have hlater : ∀ {p c n}, pending (s.call p) = some (c, n) → c ≠ b → n ≠ s.completed.length := by
    rintro p c n hp hcb rfl
    exact hcb (h.head_of_number hp)
  have hne : ∀ c ∈ l, c ≠ b := fun c hc hcb => (List.nodup_cons.mp h.queue.nodup).1 (hcb ▸ hc)
  refine
    { queue := ?_
      device := ?_
      order := ?_
      caller := ?_
      number := ?_
      done := ?_
      apart := ?_
      asleep := ?_
      returned := ?_
      ended := ?_ }
  · rw [ht]
    exact h.queue.pop
  · rw [ht]
    cases l with
    | nil => rfl
    | cons c l =>
      have hc := Function.update_of_ne (hne c List.mem_cons_self) x s.buf
      simp only [List.head?_cons, Option.map_some, wakeup, hc]
  · rw [ht]
    exact h.order.trans (by simp only [wakeup, List.append_assoc, List.singleton_append])
  · intro c hc
    obtain ⟨p, n, hp, hn⟩ := h.caller c (List.mem_cons_of_mem b hc)
    have hn' := hlater hp (hne c hc)
    exact ⟨p, n, (hpending p).trans hp, by omega⟩
  · intro p c n hp
    rw [ht]
    exact h.number p c n ((hpending p).symm.trans hp)
  · intro p c n hp
    have hp := (hpending p).symm.trans hp
    by_cases hcb : c = b
    · rw [hcb, hself]
      have hn := h.number_of_head (hcb ▸ hp)
      exact iff_of_true hx (by omega)
    · have hn := hlater hp hcb
      rw [hbuf c hcb, h.done p c n hp]
      omega
  · intro p q c n m hp hq
    exact h.apart p q c n m ((hpending p).symm.trans hp) ((hpending q).symm.trans hq)
  · intro p c n hp
    rw [ht] at hp
    obtain ⟨hp, hcb⟩ := asleep_of_wakeup hp
    have hle := h.asleep p c n hp
    have hn := hlater (congrArg pending hp) hcb
    omega
  · intro n hn
    rw [ht] at hn
    have hlt := h.returned n hn
    omega
  · rw [ht]
    exact h.ended

/-! Each event. -/

theorem Queued.change (h : Queued s l) {x : Buf D}
    (hx : Free s b ∨ x = { s.buf b with refcnt := x.refcnt }) :
    Queued { s with buf := Function.update s.buf b x } l := by
  have hcommand : ∀ c ∈ l, command (Function.update s.buf b x c) = command (s.buf c) := by
    intro c hc
    by_cases hcb : c = b
    · subst hcb
      rw [Function.update_self]
      rcases hx with hfree | hx
      · exact absurd hc (h.not_mem hfree)
      · rw [hx]
        rfl
    · rw [Function.update_of_ne hcb]
  have hdone : ∀ p c n, pending (s.call p) = some (c, n) →
      (Done (Function.update s.buf b x c) ↔ Done (s.buf c)) := by
    intro p c n hp
    by_cases hcb : c = b
    · subst hcb
      rw [Function.update_self]
      rcases hx with hfree | hx
      · exact absurd (on_of_pending hp) (hfree p)
      · rw [hx]
        exact Iff.rfl
    · rw [Function.update_of_ne hcb]
  refine { h with device := ?_, done := ?_ }
  · rw [h.device]
    cases l with
    | nil => rfl
    | cons c l =>
      have hhead := hcommand c List.mem_cons_self
      simp only [List.head?_cons, Option.map_some]
      rw [hhead]
  · intro p c n hp
    exact (hdone p c n hp).trans (h.done p c n hp)

/-- What ideintr() does when the disk is done with `c`. -/
theorem ideintr_spec (h : Queued s l) {c : Command D} (hc : s.device = some c) (a : Answer D) :
    ∃ b m, l = b :: m ∧ c = command (s.buf b) ∧
      ((∃ msg, ideintr s c a = .error msg) ∨ ∃ t, ideintr s c a = .ok t ∧ Queued t m ∧
        t.arrived = s.arrived ∧ t.completed = s.completed ++ [b] ∧
        t.disk = perform s.disk c a ∧ t.buf = Function.update s.buf b { s.buf b with
          valid := true
          dirty := false
          data := if c.write = false ∧ a.error = false then s.disk c.drive c.sector
            else (s.buf b).data }) := by
  cases l with
  | nil => cases h.device.symm.trans hc
  | cons b m =>
    have hcb : c = command (s.buf b) := Option.some.inj (hc.symm.trans h.device)
    refine ⟨b, m, rfl, hcb, ?_⟩
    have hdisk : c.write = false → perform s.disk c a = s.disk := by
      intro hread
      simp only [perform, hread, Bool.false_eq_true, if_false]
    have hdata : (if (s.buf b).dirty = false ∧ a.error = false then
        perform s.disk c a c.drive c.sector else (s.buf b).data) =
        if c.write = false ∧ a.error = false then s.disk c.drive c.sector
          else (s.buf b).data := by
      have hwrite : c.write = (s.buf b).dirty := by rw [hcb]; rfl
      rw [hwrite]
      by_cases hd : (s.buf b).dirty = false ∧ a.error = false
      · rw [if_pos hd, if_pos hd, hdisk (hwrite.trans hd.1)]
      · rw [if_neg hd, if_neg hd]
    have hpop := h.queue.pop.head
    have hhead : s.queue.head = some b := h.queue.head
    simp only [ideintr, hhead, finish, hdata, wakeup, hpop]
    cases m with
    | nil =>
      exact Or.inr ⟨_, rfl, h.complete ⟨rfl, rfl⟩ rfl, rfl, rfl, rfl, rfl⟩
    | cons d m =>
      have hdb : d ≠ b := fun hdb => (List.nodup_cons.mp h.queue.nodup).1 (hdb ▸ List.mem_cons_self)
      simp only [List.head?_cons, idestart, Function.update_of_ne hdb]
      split
      · exact Or.inl ⟨_, rfl⟩
      · exact Or.inr ⟨_, rfl, h.complete ⟨rfl, rfl⟩ rfl, rfl, rfl, rfl, rfl⟩

section Processes

variable [DecidableEq π]

theorem call_setCall_self (s : State π D) (p : π) (c : Call) : (setCall s p c).call p = c :=
  Function.update_self _ _ _

theorem call_setCall_ne (s : State π D) {p q : π} (c : Call) (h : q ≠ p) :
    (setCall s p c).call q = s.call q := Function.update_of_ne h _ _

/-- A process in iderw() goes on sleeping or is woken. -/
theorem Queued.setCall (h : Queued s l) {c : Call} (hp : pending (s.call p) = pending c)
    (hc : ∀ b n, c = .asleep b n → s.completed.length ≤ n) :
    Queued (setCall s p c) l := by
  have hpending : ∀ q, pending ((IdeQueue.setCall s p c).call q) = pending (s.call q) := by
    intro q
    by_cases hqp : q = p
    · rw [hqp, call_setCall_self, hp]
    · rw [call_setCall_ne s c hqp]
  refine
    { queue := h.queue
      device := h.device
      order := h.order
      caller := ?_
      number := ?_
      done := ?_
      apart := ?_
      asleep := ?_
      returned := h.returned
      ended := h.ended }
  · intro b hb
    obtain ⟨q, n, hq, hn⟩ := h.caller b hb
    exact ⟨q, n, (hpending q).trans hq, hn⟩
  · intro q b n hq
    exact h.number q b n ((hpending q).symm.trans hq)
  · intro q b n hq
    exact h.done q b n ((hpending q).symm.trans hq)
  · intro q r b n m hq hr
    exact h.apart q r b n m ((hpending q).symm.trans hq) ((hpending r).symm.trans hr)
  · intro q b n hq
    by_cases hqp : q = p
    · rw [hqp, call_setCall_self] at hq
      exact hc b n hq
    · rw [call_setCall_ne s c hqp] at hq
      exact h.asleep q b n hq

/-- A process whose buffer is done leaves iderw(). -/
theorem Queued.leave (h : Queued s l) (hp : s.call p = .woken b n) (hdone : Done (s.buf b)) :
    Queued { IdeQueue.setCall s p .outside with returned := s.returned ++ [n] } l := by
  have hpend : pending (s.call p) = some (b, n) := by
    rw [hp]
    rfl
  have hn := (h.done p b n hpend).mp hdone
  have hother : ∀ q c m, pending ((IdeQueue.setCall s p .outside).call q) = some (c, m) →
      pending (s.call q) = some (c, m) := by
    intro q c m hq
    by_cases hqp : q = p
    · rw [hqp, call_setCall_self] at hq
      cases hq
    · rwa [call_setCall_ne s _ hqp] at hq
  refine
    { queue := h.queue
      device := h.device
      order := h.order
      caller := ?_
      number := ?_
      done := ?_
      apart := ?_
      asleep := ?_
      returned := ?_
      ended := h.ended }
  · intro c hc
    obtain ⟨q, m, hq, hm⟩ := h.caller c hc
    have hqp : q ≠ p := by
      rintro rfl
      obtain ⟨-, rfl⟩ := Prod.mk.inj (Option.some.inj (hpend.symm.trans hq))
      omega
    exact ⟨q, m, (congrArg pending (call_setCall_ne s _ hqp)).trans hq, hm⟩
  · exact fun q c m hq => h.number q c m (hother q c m hq)
  · exact fun q c m hq => h.done q c m (hother q c m hq)
  · exact fun q r c m k hq hr => h.apart q r c m k (hother q c m hq) (hother r c k hr)
  · intro q c m hq
    by_cases hqp : q = p
    · cases (call_setCall_self s p .outside).symm.trans (hqp ▸ hq)
    · exact h.asleep q c m ((call_setCall_ne s _ hqp).symm.trans hq)
  · intro m hm
    rcases List.mem_append.mp hm with hm | hm
    · exact h.returned m hm
    · rw [List.mem_singleton.mp hm]
      exact hn

/-- The call of a process is put at the end of the queue; the device works for the head. -/
theorem Queued.append (h : Queued s l) (hp : s.call p = .outside) (hb : Free s b)
    (hdone : ¬ Done (s.buf b)) {q : Queue BufNo} (hq : Holds q (l ++ [b])) {d : Option (Command D)}
    (hd : d = (l ++ [b]).head?.map fun c => command (s.buf c)) :
    Queued { IdeQueue.setCall s p (.asleep b s.arrived.length) with
      queue := q, device := d, arrived := s.arrived ++ [(p, b)] } (l ++ [b]) := by
  have hlength : s.arrived.length = s.completed.length + l.length := by
    rw [← List.length_append, ← h.order, List.length_map]
  have hself := call_setCall_self s p (.asleep b s.arrived.length)
  have hother : ∀ {r}, r ≠ p →
      (IdeQueue.setCall s p (.asleep b s.arrived.length)).call r = s.call r :=
    fun hr => call_setCall_ne s _ hr
  have hcases : ∀ r c n,
      pending ((IdeQueue.setCall s p (.asleep b s.arrived.length)).call r) = some (c, n) →
      (r = p ∧ c = b ∧ n = s.arrived.length) ∨ (r ≠ p ∧ pending (s.call r) = some (c, n)) := by
    intro r c n hr
    by_cases hrp : r = p
    · rw [hrp, hself] at hr
      obtain ⟨rfl, rfl⟩ := Prod.mk.inj (Option.some.inj hr)
      exact Or.inl ⟨hrp, rfl, rfl⟩
    · rw [hother hrp] at hr
      exact Or.inr ⟨hrp, hr⟩
  refine
    { queue := hq
      device := hd
      order := ?_
      caller := ?_
      number := ?_
      done := ?_
      apart := ?_
      asleep := ?_
      returned := h.returned
      ended := h.ended }
  · rw [List.map_append, h.order, List.append_assoc]
    rfl
  · intro c hc
    rcases List.mem_append.mp hc with hc | hc
    · obtain ⟨r, n, hr, hn⟩ := h.caller c hc
      have hrp : r ≠ p := by
        rintro rfl
        rw [hp] at hr
        cases hr
      exact ⟨r, n, (congrArg pending (hother hrp)).trans hr, hn⟩
    · obtain rfl := List.mem_singleton.mp hc
      refine ⟨p, s.arrived.length, congrArg pending hself, ?_⟩
      show s.completed.length ≤ s.arrived.length
      omega
  · intro r c n hr
    rcases hcases r c n hr with ⟨rfl, rfl, rfl⟩ | ⟨-, hr⟩
    · exact List.getElem?_concat_length
    · have hn := h.number r c n hr
      have hlt := (List.getElem?_eq_some_iff.mp hn).1
      exact (List.getElem?_append_left hlt).trans hn
  · intro r c n hr
    rcases hcases r c n hr with ⟨rfl, rfl, rfl⟩ | ⟨-, hr⟩
    · refine iff_of_false hdone ?_
      show ¬ s.arrived.length < s.completed.length
      omega
    · exact h.done r c n hr
  · intro r u c n m hr hu
    rcases hcases r c n hr with ⟨hrp, hcb, -⟩ | ⟨-, hr⟩
    · rcases hcases u c m hu with ⟨hup, -, -⟩ | ⟨-, hu⟩
      · exact hrp.trans hup.symm
      · exact absurd (on_of_pending (hcb ▸ hu)) (hb u)
    · rcases hcases u c m hu with ⟨-, hcb, -⟩ | ⟨-, hu⟩
      · exact absurd (on_of_pending (hcb ▸ hr)) (hb r)
      · exact h.apart r u c n m hr hu
  · intro r c n hr
    rcases hcases r c n (congrArg pending hr) with ⟨-, -, rfl⟩ | ⟨hrp, -⟩
    · show s.completed.length ≤ s.arrived.length
      omega
    · exact h.asleep r c n ((hother hrp).symm.trans hr)

/-! The sections under idelock. -/

/-- What iderw() does when it returns to the lock. -/
theorem iderw_spec (havedisk1 : Bool) (h : Queued s l) (hp : s.call p = .outside)
    (hb : Free s b) :
    (∃ msg, iderw havedisk1 s p b = .error msg) ∨
    ∃ t, iderw havedisk1 s p b = .ok (some t) ∧ Queued t (l ++ [b]) ∧
      t.arrived = s.arrived ++ [(p, b)] ∧ t.call p = .asleep b s.arrived.length ∧
      t.completed = s.completed := by
  simp only [iderw]
  split
  · exact Or.inl ⟨_, rfl⟩
  rename_i hdone
  split
  · exact Or.inl ⟨_, rfl⟩
  have hlength := BufferCoherence.length_of_nodup h.queue.nodup
  obtain ⟨q, happend, hq⟩ := h.queue.append (h.not_mem hb) hlength
  rw [happend]
  dsimp only
  cases l with
  | nil =>
    have hhead : q.head = some b := hq.head
    rw [if_pos hhead]
    simp only [idestart]
    split
    · exact Or.inl ⟨_, rfl⟩
    · exact Or.inr ⟨_, rfl, h.append hp hb hdone hq rfl, rfl, call_setCall_self s p _, rfl⟩
  | cons c l =>
    have hne : q.head ≠ some b := by
      rw [hq.head]
      intro hc
      exact h.not_mem hb (Option.some.inj hc ▸ List.mem_cons_self)
    rw [if_neg hne]
    exact Or.inr ⟨_, rfl, h.append hp hb hdone hq h.device, rfl, call_setCall_self s p _, rfl⟩

/-! Whole runs. -/

omit [DecidableEq π] in
theorem initial_queued (buf : BufNo → Buf D) (disk : Dev → BlockNo → D) :
    Queued (initial buf disk : State π D) [] where
  queue := ⟨rfl, List.nodup_nil⟩
  device := rfl
  order := rfl
  caller _ hb := absurd hb List.not_mem_nil
  number _ _ _ hp := nomatch hp
  done _ _ _ hp := nomatch hp
  apart _ _ _ _ _ hp := nomatch hp
  asleep _ _ _ hp := nomatch hp
  returned _ hn := absurd hn List.not_mem_nil
  ended := nofun

theorem Queued.step {havedisk1 : Bool} {e : Event π D} (h : Queued s l)
    (hs : (machine havedisk1).Step s e t) : ∃ m, Queued t m := by
  obtain ⟨⟨-, he⟩, rfl⟩ := hs
  cases e with
  | change b x => exact ⟨l, h.change he⟩
  | iderw p b =>
    simp only [machine, next]
    rcases iderw_spec havedisk1 h he.1 he.2 with ⟨msg, heq⟩ | ⟨t, heq, ht, -⟩
    · rw [heq]
      exact ⟨l, h.halt msg⟩
    · rw [heq]
      exact ⟨l ++ [b], ht⟩
  | ideintr c a =>
    simp only [machine, next]
    obtain ⟨b, m, -, -, ⟨msg, heq⟩ | ⟨t, heq, ht, -⟩⟩ := ideintr_spec h he a
    · rw [heq]
      exact ⟨l, h.halt msg⟩
    · rw [heq]
      exact ⟨m, ht⟩
  | rouse p b n =>
    have hp : s.call p = .asleep b n := he
    have hpend : pending (s.call p) = some (b, n) := congrArg pending hp
    exact ⟨l, h.setCall hpend nofun⟩
  | resume p b n =>
    have hp : s.call p = .woken b n := he
    have hpend : pending (s.call p) = some (b, n) := congrArg pending hp
    simp only [machine, next, resume]
    split
    · rename_i hdone
      exact ⟨l, h.leave hp hdone⟩
    · rename_i hdone
      refine ⟨l, h.setCall hpend ?_⟩
      rintro c m hc
      obtain ⟨rfl, rfl⟩ := Call.asleep.inj hc
      exact Nat.le_of_not_lt fun hn => hdone ((h.done p _ _ hpend).mpr hn)

theorem run_queued {havedisk1 : Bool} {buf : BufNo → Buf D} {disk : Dev → BlockNo → D}
    {es : List (Event π D)} (r : Run (machine havedisk1).Step (· = initial buf disk) es s) :
    ∃ l, Queued s l := by
  refine r.invariant (I := fun s => ∃ l, Queued s l) ?_ ?_
  · rintro _ rfl
    exact ⟨[], initial_queued buf disk⟩
  · rintro s e t ⟨l, h⟩ hs
    exact h.step hs

/-- The requests in the queue `l` are the ones that have arrived and are not complete, and the
device works for the first of them. An interrupt completes it, and a call that returns is
complete. -/
theorem requests_in_order {havedisk1 : Bool} {buf : BufNo → Buf D} {disk : Dev → BlockNo → D}
    {es : List (Event π D)} (r : Run (machine havedisk1).Step (· = initial buf disk) es s) :
    (∃ l, Holds s.queue l ∧ s.device = l.head?.map (fun b => command (s.buf b)) ∧
      s.arrived.map Prod.snd = s.completed ++ l) ∧
    (∀ n ∈ s.returned, n < s.completed.length) ∧ s.halted ≠ some .endless ∧
    (∀ p b t, (machine havedisk1).Step s (.iderw p b) t → t.halted = none →
      t.arrived = s.arrived ++ [(p, b)] ∧ t.call p = .asleep b s.arrived.length ∧
        t.completed = s.completed) ∧
    (∀ c a t, (machine havedisk1).Step s (.ideintr c a) t → t.halted = none →
      t.arrived = s.arrived ∧ ∃ b, s.queue.head = some b ∧ c = command (s.buf b) ∧
        t.completed = s.completed ++ [b] ∧ t.buf = Function.update s.buf b { s.buf b with
          valid := true
          dirty := false
          data := if c.write = false ∧ a.error = false then s.disk c.drive c.sector
            else (s.buf b).data }) ∧
    ∀ p b n t, (machine havedisk1).Step s (.resume p b n) t →
      t.arrived = s.arrived ∧ t.completed = s.completed ∧ s.arrived[n]? = some (p, b) ∧
        (t.call p = .outside ↔ n < s.completed.length) := by
  obtain ⟨l, h⟩ := run_queued r
  refine ⟨⟨l, h.queue, h.device, h.order⟩, h.returned, h.ended, ?_, ?_, ?_⟩
  · rintro p b t ⟨⟨-, hp, hb⟩, rfl⟩ ht
    rcases iderw_spec havedisk1 h hp hb with ⟨msg, heq⟩ | ⟨t, heq, -, hspec⟩
    · simp only [machine, next, heq] at ht
      cases ht
    · simp only [machine, next, heq]
      exact hspec
  · rintro c a t ⟨⟨hrunning, hc⟩, rfl⟩ ht
    obtain ⟨b, m, rfl, hcb, ⟨msg, heq⟩ | ⟨t, heq, -, harrived, hcompleted, -, hbuf⟩⟩ :=
      ideintr_spec h hc a
    · simp only [machine, next, heq, settle] at ht
      cases ht
    · simp only [machine, next, heq, settle]
      exact ⟨harrived, b, h.queue.head, hcb, hcompleted, hbuf⟩
  · rintro p b n t ⟨⟨-, hp⟩, rfl⟩
    have hpend : pending (s.call p) = some (b, n) := congrArg pending hp
    rw [← h.done p b n hpend]
    simp only [machine, next, resume]
    split
    · rename_i hdone
      exact ⟨rfl, rfl, h.number p b n hpend, iff_of_true (call_setCall_self s p _) hdone⟩
    · rename_i hdone
      refine ⟨rfl, rfl, h.number p b n hpend, iff_of_false ?_ hdone⟩
      rw [call_setCall_self]
      exact nofun

end Processes

/-- Block `b` is to be read into buffer `b`. -/
def unread (b : BufNo) : Buf ℕ := ⟨false, false, 0, BitVec.ofNat 32 b.val, 1, 0⟩

def three : BufNo := ⟨3, by decide⟩

def five : BufNo := ⟨5, by decide⟩

/-- Two processes ask for blocks, and the first is served. -/
def twoReads : List (Event Bool ℕ) :=
  [.iderw false three, .iderw true five, .ideintr ⟨false, 0, 3, 0⟩ ⟨false, 0⟩,
    .resume false three 0]

theorem twoReads_run : Run (machine false).Step (· = initial unread fun _ n => n.toNat) twoReads
    ((machine false).exec (initial unread fun _ n => n.toNat) twoReads) := by
  refine Machine.Valid.run ⟨?_, ?_, ?_, ?_, trivial⟩
  · exact ⟨rfl, rfl, fun p => by cases p <;> exact nofun⟩
  · exact ⟨rfl, rfl, fun p => by cases p <;> decide⟩
  · exact ⟨rfl, rfl⟩
  · exact ⟨rfl, rfl⟩

theorem requests_in_order_twoReads : ∃ l,
    Holds ((machine false).exec (initial unread fun _ n => n.toNat) twoReads).queue l ∧
      [three, five] = [three] ++ l := by
  obtain ⟨⟨l, hq, -, ho⟩, -⟩ := requests_in_order twoReads_run
  exact ⟨l, hq, ho⟩

end IdeRuns

import OsEngineering.ConsoleBuffer

/-! Reads of the console against the typing: every committed character goes to one read, in order. -/
namespace ConsoleReads

open ByteBlock RingBuffer TransitionSystem Console ConsoleBuffer

variable {π : Type*} {s t : State π} {q : π} {id : ℕ}

/-- The characters that a call has taken. -/
def bytes (s : State π) (id : ℕ) : List Byte :=
  (s.taken.filter fun x => x.1 = id).map Prod.snd

def Active (s : State π) (q : π) (id : ℕ) : Prop :=
  s.phase q = .asleep id ∨ s.phase q = .woken id

/-- A call that has taken the characters `bs`; `dead` when its process was killed. -/
structure CallOk (c : Call) (bs : List Byte) (dead : Prop) : Prop where
  dst : c.dst = bs.filter (· ≠ C 'D')
  alone : C 'D' ∈ bs → bs = [C 'D']
  eof : bs = [C 'D'] ↔ c.ret = some 0 ∧ 0 < c.size
  ret : ∀ v, c.ret = some v → v = c.dst.length ∨ (v = -1 ∧ dead)

structure Kept (s : State π) : Prop where
  ring : ∃ p, Mirrors (s.taken.map Prod.snd) s.input s.text p
  calls : ∀ id < s.calls, CallOk (s.call id) (bytes s id)
    (∃ q, s.proc id = some q ∧ s.killed q = true)
  fresh : ∀ x ∈ s.taken, x.1 < s.calls
  active : ∀ q id, Active s q id → id < s.calls ∧ s.proc id = some q ∧ (s.call id).ret = none ∧
    (s.call id).dst.length + (s.call id).n = (s.call id).size.toNat
  alone : ∀ q r id, Active s q id → Active s r id → q = r

/-! Typing. -/

theorem wakeup_active (s : State π) (q : π) (id : ℕ) : Active s.wakeup q id ↔ Active s q id := by
  simp only [Active, State.wakeup]
  cases s.phase q with
  | idle => simp [Phase.wake]
  | asleep id' => simp [Phase.wake]
  | woken id' => simp [Phase.wake]

theorem wakeup_kept (h : Kept s) : Kept s.wakeup := by
  refine ⟨h.ring, h.calls, h.fresh, fun q id ha => ?_, fun q r id hq hr => ?_⟩
  · exact h.active q id ((wakeup_active s q id).mp ha)
  · exact h.alone q r id ((wakeup_active s q id).mp hq) ((wakeup_active s r id).mp hr)

theorem key_kept (h : Kept s) (c : Byte) : Kept (s.key c) := by
  obtain ⟨p, hp⟩ := h.ring
  obtain ⟨p', hp'⟩ := key_mirrors hp c
  rw [List.length_map] at hp'
  have htyped : Kept { s with
      input := (s.input.key c).1
      text := s.text.type s.taken.length c } :=
    ⟨⟨p', hp'⟩, h.calls, h.fresh, h.active, h.alone⟩
  rw [State.key]
  cases (s.input.key c).2 with
  | false => exact htyped
  | true => exact wakeup_kept htyped

theorem key_history (s : State π) (c : Byte) :
    s.text.committed <+: (s.key c).text.committed ∧ (s.key c).taken = s.taken := by
  rw [State.key]
  cases (s.input.key c).2 with
  | false => exact ⟨type_committed s.text _ c, rfl⟩
  | true => exact ⟨type_committed s.text _ c, rfl⟩

theorem consoleintr_kept (h : Kept s) (cs : List Byte) :
    Kept (consoleintr s cs) ∧ s.text.committed <+: (consoleintr s cs).text.committed ∧
      (consoleintr s cs).taken = s.taken := by
  induction cs generalizing s with
  | nil => exact ⟨h, List.prefix_rfl, rfl⟩
  | cons c cs ih =>
    obtain ⟨hgrow, hsame⟩ := key_history s c
    obtain ⟨hk, hmore, htaken⟩ := ih (key_kept h c)
    exact ⟨hk, hgrow.trans hmore, htaken.trans hsame⟩

/-! Reading. -/

theorem filter_clean {l : List Byte} (h : C 'D' ∉ l) : l.filter (· ≠ C 'D') = l := by
  rw [List.filter_eq_self]
  intro x hx
  rw [decide_eq_true_eq]
  rintro rfl
  exact h hx

/-- A call that has not returned has met no ^D. -/
theorem CallOk.running {c : Call} {bs : List Byte} {dead : Prop} (hc : CallOk c bs dead)
    (hrun : c.ret = none) : C 'D' ∉ bs ∧ c.dst = bs := by
  have hno : C 'D' ∉ bs := by
    intro hmem
    have hret := (hc.eof.mp (hc.alone hmem)).1
    rw [hrun] at hret
    cases hret
  exact ⟨hno, hc.dst.trans (filter_clean hno)⟩

section Call

variable {c : Call} {bs : List Byte} {dead : Prop} {killed : Bool} {r : Stretch}

/-- A stretch that stored what it took. -/
theorem stored_call (hno : C 'D' ∉ bs) (hdst : c.dst = bs)
    (hleft : c.dst.length + c.n = c.size.toNat) (hdead : killed = true → dead)
    (hclean : C 'D' ∉ r.took) (hstored : r.dst = r.took) (hlen : r.dst.length + r.n = c.n)
    (hret : (r.ret = none ∧ 0 < r.n) ∨ (r.ret = some (-1) ∧ killed = true) ∨
      (r.ret = some ((c.size.toNat : ℤ) - r.n) ∧ (r.n < c.size.toNat ∨ c.size.toNat = 0))) :
    CallOk { c with n := r.n, dst := c.dst ++ r.dst, ret := r.ret } (bs ++ r.took) dead := by
  have hnone : C 'D' ∉ bs ++ r.took := by
    rw [List.mem_append, not_or]
    exact ⟨hno, hclean⟩
  constructor
  · rw [filter_clean hnone, hdst, hstored]
  · exact fun hmem => absurd hmem hnone
  · constructor
    · intro heq
      rw [heq] at hnone
      exact absurd List.mem_cons_self hnone
    · rintro ⟨hzero, hsize⟩
      simp only at hzero hsize
      rcases hret with ⟨hsleep, -⟩ | ⟨hdie, -⟩ | ⟨hdone, hsome⟩
      · rw [hsleep] at hzero
        cases hzero
      · rw [hdie] at hzero
        exact absurd (Option.some.inj hzero) (by decide)
      · rw [hdone] at hzero
        have hval := Option.some.inj hzero
        omega
  · intro v hv
    simp only at hv
    rcases hret with ⟨hsleep, -⟩ | ⟨hdie, hkilled⟩ | ⟨hdone, -⟩
    · rw [hsleep] at hv
      cases hv
    · rw [hdie] at hv
      exact Or.inr ⟨(Option.some.inj hv).symm, hdead hkilled⟩
    · rw [hdone] at hv
      have hval := Option.some.inj hv
      refine Or.inl ?_
      simp only [List.length_append]
      omega

/-- A stretch that took a ^D for a call that has nothing. -/
theorem eof_call (hdst : c.dst = []) (htook : r.took = [C 'D']) (hstored : r.dst = [])
    (hsize : 0 < c.size) (hret : r.ret = some 0) :
    CallOk { c with n := r.n, dst := c.dst ++ r.dst, ret := r.ret } ([] ++ r.took) dead := by
  rw [List.nil_append, htook]
  constructor
  · simp [hdst, hstored]
  · exact fun _ => rfl
  · exact ⟨fun _ => ⟨hret, hsize⟩, fun _ => rfl⟩
  · intro v hv
    simp only [hret] at hv
    refine Or.inl ?_
    rw [← Option.some.inj hv, hdst, hstored]
    rfl

/-- One stretch of a call that has not returned. -/
theorem stretch_call {p p' l : List Byte} (hc : CallOk c bs dead) (hrun : c.ret = none)
    (hleft : c.dst.length + c.n = c.size.toNat) (hdead : killed = true → dead)
    (ht : Taken killed c.size.toNat c.n p l r p') :
    CallOk { c with n := r.n, dst := c.dst ++ r.dst, ret := r.ret } (bs ++ r.took) dead ∧
      (r.ret = none → (c.dst ++ r.dst).length + r.n = c.size.toNat) := by
  obtain ⟨hno, hdst⟩ := hc.running hrun
  rcases ht.outcome with ⟨hclean, hstored, hlen, hret⟩ | ⟨htook, hstored, hn, hfull, hpos, hret⟩
  · refine ⟨stored_call hno hdst hleft hdead hclean hstored hlen hret, fun _ => ?_⟩
    rw [List.length_append]
    omega
  · -- `n` is the size asked for, so the call had nothing yet
    have hnil : c.dst = [] := List.length_eq_zero_iff.mp (by omega)
    have hbs : bs = [] := hdst.symm.trans hnil
    rw [hbs]
    refine ⟨eof_call hnil htook hstored (by omega) hret, fun hsleep => ?_⟩
    rw [hret] at hsleep
    cases hsleep

end Call

variable [DecidableEq π]

theorem bytes_stretch (s : State π) (q : π) (id x : ℕ) :
    bytes (s.stretch q id) x = bytes s x ++
      if x = id then (readLoop (s.killed q) (s.call id).size.toNat (s.call id).n s.input).took
      else [] := by
  simp only [bytes, State.stretch, List.filter_append, List.map_append]
  congr 1
  split_ifs with hx
  · rw [List.filter_eq_self.mpr, List.map_map]
    · exact List.map_id _
    · intro y hy
      obtain ⟨c, -, rfl⟩ := List.mem_map.mp hy
      exact decide_eq_true hx.symm
  · rw [List.filter_eq_nil_iff.mpr, List.map_nil]
    intro y hy
    obtain ⟨c, -, rfl⟩ := List.mem_map.mp hy
    rw [decide_eq_true_eq]
    exact Ne.symm hx

/-- After a stretch its own call may be asleep; the others are as they were. -/
theorem stretch_active {x : ℕ} {r : π} (h : Active (s.stretch q id) r x) :
    (r = q ∧ x = id ∧ ((s.stretch q id).call id).ret = none) ∨ (r ≠ q ∧ Active s r x) := by
  simp only [Active, State.stretch] at h
  by_cases hrq : r = q
  · rw [hrq, Function.update_self] at h
    refine Or.inl ⟨hrq, ?_⟩
    simp only [State.stretch, Function.update_self]
    split_ifs at h with hnone
    · rcases h with h | h
      · exact ⟨(Phase.asleep.inj h).symm, hnone⟩
      · exact h.elim
    · rcases h with h | h
      · exact h.elim
      · exact h.elim
  · rw [Function.update_of_ne hrq] at h
    exact Or.inr ⟨hrq, h⟩

theorem stretch_kept (h : Kept s) (hid : id < s.calls) (hproc : s.proc id = some q)
    (hrun : (s.call id).ret = none)
    (hleft : (s.call id).dst.length + (s.call id).n = (s.call id).size.toNat)
    (halone : ∀ r, r ≠ q → ¬ Active s r id) : Kept (s.stretch q id) := by
  obtain ⟨p, hp⟩ := h.ring
  obtain ⟨p', ht⟩ := readLoop_taken (s.killed q) (by omega : (s.call id).n ≤ (s.call id).size.toNat)
    hp.holds
  obtain ⟨hcall, hmore⟩ := stretch_call (h.calls id hid) hrun hleft
    (fun hk => ⟨q, hproc, hk⟩) ht
  have hother : ∀ r x, r ≠ q → Active s r x → x ≠ id := by
    rintro r x hrq hr rfl
    exact halone r hrq hr
  refine ⟨⟨p', ht.holds, ?_, hp.clean⟩, fun x hx => ?_, fun x hx => ?_, fun r x hr => ?_,
    fun r r' x hr hr' => ?_⟩
  · simp only [State.stretch, List.map_append, List.map_map]
    rw [hp.committed, List.append_assoc, ht.split]
    congr 2
    exact (List.map_id _).symm
  · rw [bytes_stretch s q id x]
    by_cases hxid : x = id
    · rw [if_pos hxid, hxid]
      simp only [State.stretch, Function.update_self]
      exact hcall
    · rw [if_neg hxid, List.append_nil]
      simp only [State.stretch, Function.update_of_ne hxid]
      exact h.calls x hx
  · rcases List.mem_append.mp hx with hx | hx
    · exact h.fresh x hx
    · obtain ⟨c, -, rfl⟩ := List.mem_map.mp hx
      exact hid
  · rcases stretch_active hr with ⟨rfl, rfl, hsleep⟩ | ⟨hrq, hr⟩
    · refine ⟨hid, hproc, hsleep, ?_⟩
      simp only [State.stretch, Function.update_self] at hsleep ⊢
      exact hmore hsleep
    · simp only [State.stretch, Function.update_of_ne (hother r x hrq hr)]
      exact h.active r x hr
  · rcases stretch_active hr with ⟨rfl, rfl, -⟩ | ⟨hrq, hr⟩
    · rcases stretch_active hr' with ⟨rfl, -, -⟩ | ⟨hrq', hr'⟩
      · rfl
      · exact absurd rfl (hother r' x hrq' hr')
    · rcases stretch_active hr' with ⟨-, hx, -⟩ | ⟨-, hr'⟩
      · exact absurd hx (hother r x hrq hr)
      · exact h.alone r r' x hr hr'

theorem consoleread_kept (h : Kept s) (q : π) (n : ℤ) :
    Kept (consoleread s q n) := by
  have hno : ∀ r, ¬ Active s r s.calls := fun r hr => lt_irrefl _ (h.active r s.calls hr).1
  have hempty : bytes s s.calls = [] := by
    rw [bytes, List.filter_eq_nil_iff.mpr, List.map_nil]
    intro x hx
    rw [decide_eq_true_eq]
    exact (h.fresh x hx).ne
  apply stretch_kept
  · refine ⟨h.ring, fun x hx => ?_, fun x hx => ?_, fun r x hr => ?_, h.alone⟩
    · by_cases hnew : x = s.calls
      · simp only [hnew, Function.update_self]
        change CallOk _ (bytes s s.calls) _
        rw [hempty]
        refine ⟨rfl, fun hmem => absurd hmem List.not_mem_nil, ?_, fun v hv => ?_⟩
        · simp
        · cases hv
      · simp only [Function.update_of_ne hnew]
        exact h.calls x (lt_of_le_of_ne (Nat.lt_succ_iff.mp hx) hnew)
    · exact (h.fresh x hx).trans (Nat.lt_succ_self _)
    · have hne : x ≠ s.calls := by
        rintro rfl
        exact hno r hr
      obtain ⟨hlt, hproc, hrest⟩ := h.active r x hr
      simp only [Function.update_of_ne hne]
      exact ⟨hlt.trans (Nat.lt_succ_self _), hproc, hrest⟩
  · exact Nat.lt_succ_self _
  · simp only [Function.update_self]
  · simp only [Function.update_self]
  · simp only [Function.update_self, List.length_nil, Nat.zero_add]
  · exact fun r _ => hno r

theorem kill_kept (h : Kept s) (q : π) : Kept (kill s q) := by
  have hactive : ∀ r x, Active (kill s q) r x → Active s r x := by
    intro r x hr
    by_cases hrq : r = q
    · rw [← wakeup_active]
      simp only [Active, kill, hrq, Function.update_self] at hr
      rw [hrq]
      exact hr
    · simp only [Active, kill, Function.update_of_ne hrq] at hr
      exact hr
  refine ⟨h.ring, fun x hx => ?_, h.fresh, fun r x hr => h.active r x (hactive r x hr),
    fun r r' x hr hr' => h.alone r r' x (hactive r x hr) (hactive r' x hr')⟩
  obtain ⟨hdst, halone, heof, hret⟩ := h.calls x hx
  refine ⟨hdst, halone, heof, fun v hv => ?_⟩
  rcases hret v hv with hlen | ⟨hneg, r, hproc, hdead⟩
  · exact Or.inl hlen
  · refine Or.inr ⟨hneg, r, hproc, ?_⟩
    simp only [kill]
    by_cases hrq : r = q
    · rw [hrq, Function.update_self]
    · rw [Function.update_of_ne hrq]
      exact hdead

theorem next_kept {e : Event π} (h : Kept s) (he : Enabled s e) :
    Kept (next s e) ∧ s.text.committed <+: (next s e).text.committed ∧
      s.taken <+: (next s e).taken := by
  cases e with
  | consoleintr cs =>
    obtain ⟨hk, hgrow, hsame⟩ := consoleintr_kept h cs
    exact ⟨hk, hgrow, hsame ▸ List.prefix_rfl⟩
  | consoleread q n => exact ⟨consoleread_kept h q n, List.prefix_rfl, List.prefix_append _ _⟩
  | resume q =>
    obtain ⟨id, hid⟩ := he
    obtain ⟨hlt, hproc, hrun, hleft⟩ := h.active q id (Or.inr hid)
    rw [next, hid]
    refine ⟨stretch_kept h hlt hproc hrun hleft fun r hrq hr => ?_, List.prefix_rfl,
      List.prefix_append _ _⟩
    exact hrq (h.alone r q id hr (Or.inr hid))
  | kill q => exact ⟨kill_kept h q, List.prefix_rfl, List.prefix_rfl⟩

omit [DecidableEq π] in
theorem initial_kept (buf : Fin INPUT_BUF → Byte) (killed : π → Bool) :
    Kept (initial buf killed) := by
  refine ⟨⟨[], ⟨rfl, rfl, Nat.zero_le _, ?_⟩, rfl, fun x hx => absurd hx List.not_mem_nil⟩,
    fun x hx => absurd hx (Nat.not_lt_zero x), fun x hx => absurd hx List.not_mem_nil,
    fun r x hr => ?_, fun r r' x hr => ?_⟩
  · exact contents_self buf 0
  · rcases hr with hr | hr
    · cases hr
    · cases hr
  · rcases hr with hr | hr
    · cases hr
    · cases hr

/-- Where the characters are, and what each read got of them. -/
structure Disciplined (s : State π) : Prop where
  distances : (s.input.w - s.input.r).toNat + (s.input.e - s.input.w).toNat =
    (s.input.e - s.input.r).toNat ∧ (s.input.e - s.input.r).toNat ≤ INPUT_BUF
  delivered : s.text.committed =
    s.taken.map Prod.snd ++ contents s.input.buf s.input.r s.input.w
  edited : s.text.line = contents s.input.buf s.input.w s.input.e
  stored : ∀ id < s.calls, (s.call id).dst = (bytes s id).filter (· ≠ C 'D')
  returned : ∀ id < s.calls, ∀ v, (s.call id).ret = some v → v = (s.call id).dst.length ∨
    (v = -1 ∧ ∃ q, s.proc id = some q ∧ s.killed q = true)
  alone : ∀ id < s.calls, C 'D' ∈ bytes s id → bytes s id = [C 'D']
  eof : ∀ id < s.calls,
    (bytes s id = [C 'D'] ↔ (s.call id).ret = some 0 ∧ 0 < (s.call id).size)
  numbered : ∀ x ∈ s.taken, x.1 < s.calls

omit [DecidableEq π] in
theorem Kept.disciplined (h : Kept s) : Disciplined s := by
  obtain ⟨p, hp⟩ := h.ring
  have hholds := hp.holds
  have hcap := cap_lt
  have hbound := hholds.bound
  have hsplit := contents_append s.input.buf s.input.r
    (j := p.length) (k := s.text.line.length) (by omega)
  rw [← hholds.w_eq, ← hholds.e_eq, hholds.chars] at hsplit
  have hlen : p.length = (contents s.input.buf s.input.r s.input.w).length := by
    rw [length_contents, count, hholds.count_w]
  obtain ⟨hfront, hline⟩ := List.append_inj hsplit hlen
  constructor
  · rw [hholds.count_w, hholds.count_line, hholds.count_e]
    exact ⟨rfl, hbound⟩
  · rw [hp.committed, hfront]
  · exact hline
  · exact fun id hid => (h.calls id hid).dst
  · exact fun id hid => (h.calls id hid).ret
  · exact fun id hid => (h.calls id hid).alone
  · exact fun id hid => (h.calls id hid).eof
  · exact h.fresh

/-- From any state `s` of a run to any later one, `t`. -/
theorem input_discipline {buf : Fin INPUT_BUF → Byte} {killed : π → Bool}
    {es es' : List (Event π)} (hs : Run machine.Step (· = initial buf killed) es s)
    (ht : Run machine.Step (· = s) es' t) :
    Disciplined t ∧ s.text.committed <+: t.text.committed ∧ s.taken <+: t.taken := by
  have hkept : Kept s := by
    refine hs.invariant (I := Kept) ?_ ?_
    · rintro _ rfl
      exact initial_kept buf killed
    · rintro a e b ha ⟨he, rfl⟩
      exact (next_kept ha he).1
  have hlater : Kept t ∧ s.text.committed <+: t.text.committed ∧ s.taken <+: t.taken := by
    refine ht.invariant (I := fun t => Kept t ∧ s.text.committed <+: t.text.committed ∧
      s.taken <+: t.taken) ?_ ?_
    · rintro _ rfl
      exact ⟨hkept, List.prefix_rfl, List.prefix_rfl⟩
    · rintro a e b ⟨ha, hgrow, htaken⟩ ⟨he, rfl⟩
      obtain ⟨hb, hmore, hon⟩ := next_kept ha he
      exact ⟨hb, hgrow.trans hmore, htaken.trans hon⟩
  exact ⟨hlater.1.disciplined, hlater.2⟩

/-- The bytes that reads have returned: what a call took that returned -1 is not among them. -/
def returned (s : State π) : List Byte :=
  ((s.taken.filter fun x => (s.call x.1).ret.any (0 ≤ ·)).map Prod.snd).filter (· ≠ C 'D')

/-- A process is killed when it has taken a full ring, and another one reads. -/
def killedReader : List (Event (Fin 2)) :=
  [.consoleintr (List.replicate INPUT_BUF (chr 'a')), .consoleread p0 200, .kill p0, .resume p0,
    .consoleintr [chr 'b', chr '\n'], .consoleread p1 10]

theorem killed_read_loses : ∃ s, Run machine.Step
    (· = initial (fun _ => 0) fun _ => false) killedReader s ∧
    ¬ returned s <+: s.text.committed.filter (· ≠ C 'D') :=
  ⟨_, Machine.Valid.run (by decide +kernel), by decide +kernel⟩

/-- One line, read in two parts, and an end of file. -/
def twoReads : List (Event (Fin 2)) :=
  [.consoleread p0 2, .consoleintr [chr 'x', chr 'h', C 'H', chr 'y', chr '\r', C 'D'],
    .resume p0, .consoleread p0 2, .consoleread p1 5]

theorem input_discipline_twoReads : ∃ s, Run machine.Step
    (· = initial (fun _ => 0) fun _ => false) twoReads s ∧ Disciplined s ∧
    s.taken.map Prod.snd = [chr 'x', chr 'y', chr '\n', C 'D'] := by
  have hvalid : machine.Valid (initial (fun _ => 0) fun _ => false) twoReads := by
    decide +kernel
  have hrun := hvalid.run
  exact ⟨_, hrun, (input_discipline hrun (.nil rfl)).1, by decide +kernel⟩

end ConsoleReads

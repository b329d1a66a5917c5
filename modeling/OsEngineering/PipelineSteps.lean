import OsEngineering.PipelineStages

/-! The steps of a pipeline: a program reads, writes or exits. -/
namespace Pipelines

open ByteBlock TransitionSystem Pipes PipeStream StreamFilters

variable {program : ℕ → StreamFilter Byte} {file : List Byte} {n i k : ℕ} {s s' : State program}
  {m t : Mode} {p : Pipes.State Side}

/-! The other end of a program -/

def Mode.isWriting : Mode → Bool
  | .writing _ _ _ => true
  | _ => false

theorem Writes.idle (h : Writes p m) (hm : m.isWriting = false) : p.phase .writer = .idle := by
  rcases h.phase with hidle | ⟨call, later, eof, j, rfl, -⟩
  · exact hidle
  · simp [Mode.isWriting] at hm

theorem Inv.output_idle (h : Inv file n s) (hi : i < n) (hm : (s.mode i).isWriting = false) :
    s.outputPhase n i = .idle := by
  by_cases hlast : i + 1 = n
  · simp [State.outputPhase, hlast]
  · simpa [State.outputPhase, hlast] using (h.writes i (by omega)).idle hm

theorem Inv.input_idle (h : Inv file n s) (hi : i < n) (hm : s.mode i ≠ .reading) :
    s.inputPhase i = .idle := by
  cases i with
  | zero => rfl
  | succ k => exact (h.reads k hi).idle hm

/-- A program that has read from the file. -/
theorem local_file (h : Inv file n s) (hn : 0 < n) (hmode : s.mode 0 = .reading) {off : ℕ}
    {v : (program 0).Vars} (hoff : off ≤ file.length) (hout : t.hasOutput = true)
    (hfollows : Follows (program 0) file (file.take off) (s.gave n 0) v 0 t)
    (hmore : s.off < off ∨ s.off = off ∧ 0 < t.rank) :
    Local file n s 0 { s with
      off := off
      mode := Function.update s.mode 0 t
      vars := Function.update s.vars 0 v } := by
  have hidle := h.output_idle hn (by simp [hmode, Mode.isWriting])
  refine
    { off := hoff
      rest := by simp
      console := by simp
      mode := fun j hj => Function.update_of_ne hj _ _
      vars := fun j hj => Function.update_of_ne hj _ _
      pipe := by simp
      reads := by simp
      writes := fun hk => ⟨h.sound 0 hk, ?_⟩
      before := by simp
      behind := fun hk => ⟨h.reads 0 hk, rfl, rfl⟩
      follows := ?_
      order := by simp
      weight := ?_ }
  · have hw := h.writes 0 hk
    rw [hmode] at hw
    simpa using hw.mode (hw.idle rfl) hout
  · have hcounter : counter (s.outputPhase n 0) = 0 := by simp [hidle, counter]
    have hphase : counter ((if 0 + 1 = n then .idle else (s.pipe 0).phase .writer) : Phase) = 0 :=
      hcounter
    simpa [State.took, State.gave, State.outputPhase, stream, hphase] using hfollows
  · have hlen := h.off
    have hzero : Mode.reading.rank = 0 := rfl
    simp only [State.weight, State.took, State.gave, State.inCall, State.inputPhase,
      State.outputPhase, Function.update_self, hmode, hzero, List.length_take]
    omega

/-- The phase of the other process at a pipe after a section of one of them. -/
def Woken (c : Channel) (f g : Phase) : Prop := g = f ∨ g = wake c f

theorem Woken.same {c : Channel} {f g : Phase} (h : Woken c f g) :
    counter g = counter f ∧ g.isIdle = f.isIdle := by
  rcases h with rfl | rfl
  · exact ⟨rfl, rfl⟩
  · refine ⟨counter_wake c f, ?_⟩
    cases f with
    | idle => rfl
    | woken call => rfl
    | asleep d call => by_cases hd : d = c <;> simp [wake, hd, Phase.isIdle]

/-- A program that has read from a pipe, slept in the read, or closed the pipe. -/
theorem local_input (h : Inv file n s) (hk : k + 1 < n)
    (hmode : (s.mode (k + 1)).isWriting = false) {v : (program (k + 1)).Vars}
    (hsound : Sound p) (hreads : Reads p t (program (k + 1)).size) (hwrites : Writes p (s.mode k))
    (hstored : p.stored = (s.pipe k).stored)
    (hwriter : Woken .nwrite ((s.pipe k).phase .writer) (p.phase .writer))
    (hout : t.hasOutput = (s.mode (k + 1)).hasOutput)
    (hfollows : Follows (program (k + 1)) (stream program file (k + 1)) p.taken (s.gave n (k + 1)) v
      0 t)
    (horder : t.seenEnd = true → s.mode k = .exited)
    (hmore : 3 * (s.pipe k).taken.length + (s.mode (k + 1)).rank +
        (!((s.pipe k).phase .reader).isIdle).toNat <
      3 * p.taken.length + t.rank + (!(p.phase .reader).isIdle).toNat) :
    Local file n s (k + 1) { s with
      mode := Function.update s.mode (k + 1) t
      vars := Function.update s.vars (k + 1) v
      pipe := Function.update s.pipe k p } := by
  have hidle := h.output_idle hk hmode
  have hother : Function.update s.pipe k p (k + 1) = s.pipe (k + 1) :=
    Function.update_of_ne (by omega) _ _
  refine
    { off := h.off
      rest := by simp
      console := by simp
      mode := fun j hj => Function.update_of_ne hj _ _
      vars := fun j hj => Function.update_of_ne hj _ _
      pipe := fun j _ hj => Function.update_of_ne (by omega) _ _
      reads := ?_
      writes := fun hk' => ?_
      before := ?_
      behind := fun hk' => ?_
      follows := ?_
      order := ?_
      weight := ?_ }
  · intro j hj
    obtain rfl : j = k := by omega
    simpa using ⟨hsound, hreads⟩
  · have hw := h.writes (k + 1) hk'
    simpa [hother] using ⟨h.sound (k + 1) hk', hw.mode (hw.idle hmode) hout⟩
  · intro j hj
    obtain rfl : j = k := by omega
    obtain ⟨hcounter, hsame⟩ := hwriter.same
    simpa using ⟨hwrites, hstored, hcounter, hsame⟩
  · simpa [hother] using h.reads (k + 1) hk'
  · have hphase :
        counter
          ((if k + 1 + 1 = n then .idle else (s.pipe (k + 1)).phase .writer) : Phase) = 0 := by
      change counter (s.outputPhase n (k + 1)) = 0
      simp [hidle, counter]
    simpa [State.took, State.gave, State.outputPhase, hother, hphase] using hfollows
  · intro j hj
    obtain rfl : j = k := by omega
    simpa using horder
  · have hone : ((s.outputPhase n (k + 1)).isIdle) = true := by simp [hidle, Phase.isIdle]
    have hone' : ((if k + 1 + 1 = n then .idle else (s.pipe (k + 1)).phase .writer) : Phase).isIdle
        = true := hone
    simp only [State.weight, State.took, State.gave, State.inCall, State.inputPhase,
      State.outputPhase, Function.update_self, hother, hone', Bool.not_true, Bool.or_false]
    omega

/-- A program that has written to a pipe, slept in the write, or closed the pipe. -/
theorem local_output (h : Inv file n s) (hi : i + 1 < n) (hmode : s.mode i ≠ .reading)
    (hsound : Sound p) (hwrites : Writes p t)
    (hreads : Reads p (s.mode (i + 1)) (program (i + 1)).size)
    (htaken : p.taken = (s.pipe i).taken)
    (hreader : Woken .nread ((s.pipe i).phase .reader) (p.phase .reader))
    (hin : i ≠ 0 → t.hasInput = (s.mode i).hasInput)
    (hfollows : Follows (program i) (stream program file i) (s.took file i) p.stored (s.vars i)
      (counter (p.phase .writer)) t)
    (horder : t.seenEnd = true → (s.mode i).seenEnd = true)
    (hmore : 3 * (s.pipe i).stored.length + (s.mode i).rank +
        (!((s.pipe i).phase .writer).isIdle).toNat <
      3 * p.stored.length + t.rank + (!(p.phase .writer).isIdle).toNat) :
    Local file n s i { s with
      mode := Function.update s.mode i t
      pipe := Function.update s.pipe i p } := by
  have hnot : ¬i + 1 = n := by omega
  have hidle := h.input_idle (by omega) hmode
  have htook : ∀ j, j + 1 = i → Function.update s.pipe i p j = s.pipe j :=
    fun j hj => Function.update_of_ne (by omega) _ _
  have hboth : State.took file { s with
        mode := Function.update s.mode i t
        pipe := Function.update s.pipe i p } i = s.took file i ∧
      (State.inputPhase { s with
        mode := Function.update s.mode i t
        pipe := Function.update s.pipe i p } i) = s.inputPhase i := by
    cases i with
    | zero => exact ⟨rfl, rfl⟩
    | succ k => simp [State.took, State.inputPhase]
  refine
    { off := h.off
      rest := by simp
      console := by simp
      mode := fun j hj => Function.update_of_ne hj _ _
      vars := by simp
      pipe := fun j hj _ => Function.update_of_ne hj _ _
      reads := fun k hk => ?_
      writes := fun _ => by simpa using ⟨hsound, hwrites⟩
      before := fun k hk => ?_
      behind := fun _ => ?_
      follows := ?_
      order := fun k hk hend => ?_
      weight := ?_ }
  · subst hk
    have hr := h.reads k (by omega)
    simpa [htook k rfl] using ⟨h.sound k (by omega), hr.mode (hr.idle hmode) (hin (by omega))⟩
  · subst hk
    simpa [htook k rfl] using h.writes k (by omega)
  · obtain ⟨-, hsame⟩ := hreader.same
    simpa using ⟨hreads, htaken, hsame⟩
  · rw [hboth.1]
    simpa [State.gave, State.outputPhase, hnot] using hfollows
  · subst hk
    exact h.order k (by omega) (horder (by simpa using hend))
  · have hone : (s.inputPhase i).isIdle = true := by simp [hidle, Phase.isIdle]
    simp only [State.weight, State.inCall, hboth.1, hboth.2, hone, State.gave, State.outputPhase,
      if_neg hnot, Function.update_self, Bool.not_true, Bool.false_or]
    omega

/-- A last program that has written to the console, or exits. -/
theorem local_console (h : Inv file n s) (hi : i + 1 = n) (hmode : s.mode i ≠ .reading)
    {out : List Byte} (hin : i ≠ 0 → t.hasInput = (s.mode i).hasInput)
    (hfollows : Follows (program i) (stream program file i) (s.took file i) out (s.vars i) 0 t)
    (horder : t.seenEnd = true → (s.mode i).seenEnd = true)
    (hmore : 3 * s.output.length + (s.mode i).rank < 3 * out.length + t.rank) :
    Local file n s i { s with
      mode := Function.update s.mode i t
      output := out } := by
  have hidle := h.input_idle (by omega) hmode
  have hboth : State.took file { s with
        mode := Function.update s.mode i t
        output := out } i = s.took file i ∧
      State.inputPhase { s with
        mode := Function.update s.mode i t
        output := out } i = s.inputPhase i := by
    cases i with
    | zero => exact ⟨rfl, rfl⟩
    | succ k => exact ⟨rfl, rfl⟩
  refine
    { off := h.off
      rest := by simp
      console := fun hne => absurd hi hne
      mode := fun j hj => Function.update_of_ne hj _ _
      vars := by simp
      pipe := by simp
      reads := fun k hk => ?_
      writes := fun hlt => by omega
      before := fun k hk => ?_
      behind := fun hlt => by omega
      follows := ?_
      order := fun k hk hend => ?_
      weight := ?_ }
  · subst hk
    have hr := h.reads k (by omega)
    simpa using ⟨h.sound k (by omega), hr.mode (hr.idle hmode) (hin (by omega))⟩
  · subst hk
    simpa using h.writes k (by omega)
  · rw [hboth.1]
    simpa [State.gave, State.outputPhase, hi, counter] using hfollows
  · subst hk
    exact h.order k (by omega) (horder (by simpa using hend))
  · have hone : (s.inputPhase i).isIdle = true := by simp [hidle, Phase.isIdle]
    simp only [State.weight, State.inCall, hboth.1, hboth.2, hone, State.gave, State.outputPhase,
      if_pos hi, Function.update_self, Bool.not_true, Bool.false_or]
    omega

/-! What a program does next -/

section Writes

variable {f : StreamFilter Byte} {whole took gave : List Byte} {v : f.Vars}
  {calls : List (List Byte)} {eof : Bool}

theorem follows_writes (hne : [] ∉ calls) (hv : v = f.after took) (heof : eof = true → took = whole)
    (hgave : gave ++ calls.flatten = if eof then f.written took else f.early took) :
    Follows f whole took gave v 0 (.writes calls eof) := by
  cases calls with
  | nil =>
    rw [List.flatten_nil, List.append_nil] at hgave
    cases eof with
    | false => exact ⟨hv, hgave⟩
    | true => exact ⟨heof rfl, hgave⟩
  | cons call later => exact ⟨hne, hv, heof, by simpa using hgave⟩

theorem writes_hasInput (calls : List (List Byte)) (eof : Bool) :
    (Mode.writes calls eof).hasInput = true := by
  cases calls <;> cases eof <;> rfl

theorem writes_hasOutput (calls : List (List Byte)) (eof : Bool) :
    (Mode.writes calls eof).hasOutput = true := by
  cases calls <;> cases eof <;> rfl

theorem writes_seenEnd (calls : List (List Byte)) (eof : Bool) :
    (Mode.writes calls eof).seenEnd = eof := by
  cases calls <;> cases eof <;> rfl

theorem writes_rank (calls : List (List Byte)) : 3 ≤ (Mode.writes calls true).rank := by
  cases calls <;> simp [Mode.writes, Mode.rank]

/-- At the end of its input a filter writes what is left. -/
theorem Follows.finish (h : Follows f whole took gave v 0 .reading) (hall : took = whole) :
    Follows f whole took gave v 0 (.writes (f.finish v) true) := by
  obtain ⟨hv, hgave⟩ := h
  refine follows_writes (f.finish_ne_nil v) hv (fun _ => hall) ?_
  simp [hv, hgave, StreamFilter.written]

theorem Follows.feed (h : Follows f whole took gave v 0 .reading) (chunk : List Byte) :
    Follows f whole (took ++ chunk) gave (f.feed v chunk).1 0
      (.writes (f.feed v chunk).2 false) := by
  obtain ⟨rfl, rfl⟩ := h
  refine follows_writes (f.feed_ne_nil _ chunk) (f.after_append took chunk).symm (by simp) ?_
  simp [f.early_append]

end Writes

/-! read() -/

theorem step_file (h : Inv file n s) (hn : 0 < n) (hmode : s.mode 0 = .reading) :
    Local file n s 0 (s.read file 0) := by
  have hfollows := h.follows 0 hn
  have hidle := h.output_idle hn (by simp [hmode, Mode.isWriting])
  rw [hmode, hidle] at hfollows
  have hsize := (program 0).size_pos
  by_cases hend : s.off = file.length
  · have hchunk : (file.drop s.off).take (program 0).size = [] := by simp [hend]
    have hwhole : s.took file 0 = file := by simp [State.took, hend]
    have hstep := local_file h hn hmode (v := s.vars 0) h.off
      (writes_hasOutput _ true) (hfollows.finish hwhole) (Or.inr ⟨rfl, by
        have := writes_rank ((program 0).finish (s.vars 0))
        omega⟩)
    simpa [State.read, hchunk, State.received, State.setMode] using hstep
  · have hoff := h.off
    have hpos : 0 < ((file.drop s.off).take (program 0).size).length := by
      simp
      omega
    have hlen : s.off + ((file.drop s.off).take (program 0).size).length ≤ file.length := by
      simp
      omega
    have htook : file.take (s.off + ((file.drop s.off).take (program 0).size).length) =
        s.took file 0 ++ (file.drop s.off).take (program 0).size := by
      rw [List.take_add, State.took, List.append_cancel_left_eq, List.take_eq_take_iff]
      simp
    have hfeed := hfollows.feed ((file.drop s.off).take (program 0).size)
    rw [← htook] at hfeed
    have hstep := local_file h hn hmode hlen (writes_hasOutput _ false) hfeed (Or.inl (by omega))
    have hr : ¬((((file.drop s.off).take (program 0).size).length : ℕ) : ℤ) < 0 := by omega
    have hr' : ¬((((file.drop s.off).take (program 0).size).length : ℕ) : ℤ) = 0 := by omega
    simpa only [State.read, State.received, if_neg hr, if_neg hr', State.setMode] using hstep

/-- A program has written a part of what its filter makes of its input. -/
theorem Follows.gave_starts {f : StreamFilter Byte} {whole took gave : List Byte} {v : f.Vars}
    {j : ℕ} (h : Follows f whole took gave v j m) (htook : took <+: whole) :
    gave <+: f.written whole := by
  cases m with
  | reading => exact h.2 ▸ f.early_starts_written htook
  | writing call later eof =>
    obtain ⟨-, -, hall, hgave⟩ := h
    have hpart := List.prefix_append gave (call.drop j ++ later.flatten)
    rw [hgave] at hpart
    cases eof with
    | false => exact hpart.trans (f.early_starts_written htook)
    | true => exact hall rfl ▸ hpart
  | exiting => exact h.1 ▸ h.2 ▸ List.prefix_refl _
  | leaving => exact h.1 ▸ h.2 ▸ List.prefix_refl _
  | exited => exact h.1 ▸ h.2 ▸ List.prefix_refl _
  | failed => exact absurd h id

theorem Inv.took_starts (h : Inv file n s) (hi : i < n) :
    s.took file i <+: stream program file i := by
  induction i with
  | zero => exact List.take_prefix _ _
  | succ k ih =>
    have hgave := (h.follows k (by omega)).gave_starts (ih (by omega))
    have hpipe : s.gave n k = (s.pipe k).taken ++ (s.pipe k).pipe.queue := by
      have hpending := (h.sound k hi).stream.pending
      rwa [s.gave_pipe (by omega)]
    rw [hpipe] at hgave
    exact (List.prefix_append _ _).trans hgave

/-- The reader of a pipe that is empty and closed has read all of its input. -/
theorem Inv.took_all (h : Inv file n s) (hk : k + 1 < n) (hempty : (s.pipe k).pipe.unread = 0)
    (hclosed : (s.pipe k).pipe.writeopen = false) :
    s.mode k = .exited ∧ (s.pipe k).taken = stream program file (k + 1) := by
  have hexited : s.mode k = .exited := by
    have hopened := (h.writes k hk).opened
    rw [hclosed] at hopened
    cases hmode : s.mode k <;> simp [hmode, Mode.hasOutput] at hopened ⊢
  have hfollows := h.follows k (by omega)
  rw [hexited] at hfollows
  obtain ⟨htook, hgave⟩ := hfollows
  have hpending := (h.sound k hk).stream.pending
  have hqueue : (s.pipe k).pipe.queue = [] := by
    apply List.eq_nil_of_length_eq_zero
    simpa [Pipe.queue, RingBuffer.length_contents, Pipe.unread] using hempty
  refine ⟨hexited, ?_⟩
  rw [hqueue, List.append_nil] at hpending
  rw [stream, ← htook, ← hgave, s.gave_pipe (by omega), hpending]

/-- A reader that read() has returned to. -/
theorem Reads.takes {size : ℕ} {p' : Pipes.State Side} {chunk : List Byte}
    (h : Reads p .reading size) (htakes : Takes p p' chunk) (hin : t.hasInput = true) :
    Reads p' t size where
  opened := (htakes.readopen.trans h.opened).trans hin.symm
  idle _ := htakes.reader
  phase := Or.inl htakes.reader

/-- read() of an empty pipe that is still open puts the program to sleep. -/
theorem step_read_sleeps (h : Inv file n s) (hk : k + 1 < n) (hmode : s.mode (k + 1) = .reading)
    (hawake : ((s.pipe k).phase .reader).chan = none) (hempty : (s.pipe k).pipe.unread = 0)
    (hopen : (s.pipe k).pipe.writeopen = true)
    (hwait : piperead (s.pipe k) .reader (program (k + 1)).size =
      (s.pipe k).move .reader (.asleep .nread (.piperead (program (k + 1)).size))) :
    Local file n s (k + 1) (s.read file (k + 1)) := by
  have hfollows := h.follows (k + 1) hk
  have hreads := h.reads k hk
  have hidle := h.output_idle hk (by simp [hmode, Mode.isWriting])
  rw [hmode] at hreads
  rw [hmode, hidle] at hfollows
  have hsection := readSection_eq hreads hawake
  -- A woken reader has something to read, so this is its first section.
  have hfirst : (s.pipe k).phase .reader = .idle := by
    rcases hreads.phase with hfirst | ⟨-, hread | hclosed⟩ | ⟨hasleep, -⟩
    · exact hfirst
    · exact absurd hempty hread
    · simp [hopen] at hclosed
    · simp [hasleep, Phase.chan] at hawake
  have hsound : Sound ((s.pipe k).move .reader
      (.asleep .nread (.piperead (program (k + 1)).size))) :=
    { stream := (h.sound k hk).stream.congr rfl rfl rfl rfl
      alive := (h.sound k hk).alive }
  have hstep := local_input h hk (by simp [hmode, Mode.isWriting]) (t := s.mode (k + 1))
    (v := s.vars (k + 1)) hsound
    (by
      rw [hmode]
      exact ⟨hreads.opened, by simp, Or.inr (Or.inr ⟨by simp [State.move], hempty, hopen⟩)⟩)
    ⟨(h.writes k hk).opened, by simpa [State.move] using (h.writes k hk).phase⟩
    rfl (Or.inl (by simp [State.move])) rfl (by
      rw [hmode]
      exact hfollows)
    (by simp [hmode, Mode.seenEnd]) (by simp [State.move, hfirst, Phase.isIdle])
  simpa [State.read, hsection, hwait, State.move, Phase.isIdle, State.setPipe] using hstep

/-- What read() does when it returns. -/
theorem read_returned {chunk : List Byte} (h : Inv file n s) (hk : k + 1 < n)
    (hmode : s.mode (k + 1) = .reading) (hawake : ((s.pipe k).phase .reader).chan = none)
    (htakes : Takes (s.pipe k) (piperead (s.pipe k) .reader (program (k + 1)).size) chunk) :
    s.read file (k + 1) =
      (s.setPipe k (piperead (s.pipe k) .reader (program (k + 1)).size)).received (k + 1)
        chunk.length chunk := by
  have hreads := h.reads k hk
  rw [hmode] at hreads
  have hsection := readSection_eq hreads hawake
  simp [State.read, hsection, htakes.reader, htakes.ret, htakes.taken, Phase.isIdle]

/-- A program that gets its input, or the end of it, writes what its filter makes of that. -/
theorem step_read_takes {chunk : List Byte} {calls : List (List Byte)} {eof : Bool}
    {v : (program (k + 1)).Vars} (h : Inv file n s) (hk : k + 1 < n)
    (hmode : s.mode (k + 1) = .reading)
    (htakes : Takes (s.pipe k) (piperead (s.pipe k) .reader (program (k + 1)).size) chunk)
    (hchunk : chunk = [] → (s.pipe k).pipe.unread = 0)
    (hfollows : Follows (program (k + 1)) (stream program file (k + 1))
      ((s.pipe k).taken ++ chunk) (s.gave n (k + 1)) v 0 (.writes calls eof))
    (hend : eof = true → s.mode k = .exited)
    (hmore : chunk ≠ [] ∨ 3 ≤ (Mode.writes calls eof).rank) :
    Local file n s (k + 1) { s with
      mode := Function.update s.mode (k + 1) (.writes calls eof)
      vars := Function.update s.vars (k + 1) v
      pipe := Function.update s.pipe k (piperead (s.pipe k) .reader (program (k + 1)).size) } := by
  have hreads := h.reads k hk
  rw [hmode] at hreads
  have hout : (s.mode (k + 1)).hasOutput = true := by
    rw [hmode]
    rfl
  have hzero : (s.mode (k + 1)).rank = 0 := by
    rw [hmode]
    rfl
  have hbool := Bool.toNat_le (!((s.pipe k).phase .reader).isIdle)
  apply local_input h hk (by simp [hmode, Mode.isWriting]) htakes.sound
    (hreads.takes htakes (writes_hasInput calls eof)) ((h.writes k hk).takes htakes hchunk)
    htakes.stored (Or.inr htakes.writer) ((writes_hasOutput calls eof).trans hout.symm)
  · rw [htakes.taken]
    exact hfollows
  · rw [writes_seenEnd]
    exact hend
  · rw [htakes.taken, List.length_append]
    rcases hmore with hne | hrank
    · have hpos := List.length_pos_iff.mpr hne
      omega
    · omega

theorem step_read (h : Inv file n s) (hk : k + 1 < n) (hmode : s.mode (k + 1) = .reading)
    (hawake : ((s.pipe k).phase .reader).chan = none) :
    Local file n s (k + 1) (s.read file (k + 1)) := by
  have hfollows := h.follows (k + 1) hk
  have hidle := h.output_idle hk (by simp [hmode, Mode.isWriting])
  rw [hmode, hidle] at hfollows
  have hsize := (program (k + 1)).size_pos
  rcases piperead_cases (h.sound k hk) (program (k + 1)).size with
    ⟨hempty, hopen, hwait⟩ | ⟨hsome, chunk, hlen, htakes⟩
  · exact step_read_sleeps h hk hmode hawake hempty hopen hwait
  · have hchunk : chunk = [] → (s.pipe k).pipe.unread = 0 := by
      rintro rfl
      rw [List.length_nil] at hlen
      omega
    have hnotneg : ¬((chunk.length : ℕ) : ℤ) < 0 := by omega
    rw [read_returned h hk hmode hawake htakes, State.received, if_neg hnotneg]
    by_cases hnil : chunk = []
    · -- The pipe is empty and closed: read() returns 0.
      have hclosed : (s.pipe k).pipe.writeopen = false := by
        rcases hsome with hread | hclosed
        · exact absurd (hchunk hnil) hread
        · exact hclosed
      obtain ⟨hexited, hall⟩ := h.took_all hk (hchunk hnil) hclosed
      have hstep := step_read_takes h hk hmode htakes hchunk
        (by
          rw [hnil, List.append_nil]
          exact hfollows.finish hall)
        (fun _ => hexited) (Or.inr (writes_rank _))
      simpa [hnil, State.setMode, State.setPipe] using hstep
    · have hpos := List.length_pos_iff.mpr hnil
      have hnotzero : ¬((chunk.length : ℕ) : ℤ) = 0 := by omega
      have hstep := step_read_takes h hk hmode htakes hchunk (hfollows.feed chunk) (by simp)
        (Or.inl hnil)
      simpa only [if_neg hnotzero, State.setMode, State.setPipe] using hstep

/-! write() -/

section Write

variable {call : List Byte} {later : List (List Byte)} {eof : Bool}

/-- The rest of a write() is stored. -/
theorem Follows.sent {f : StreamFilter Byte} {whole took gave : List Byte} {v : f.Vars} {j : ℕ}
    (h : Follows f whole took gave v j (.writing call later eof)) :
    Follows f whole took (gave ++ call.drop j) v 0 (.writes later eof) := by
  obtain ⟨hne, hv, hall, hgave⟩ := h
  refine follows_writes (fun hmem => hne (List.mem_cons_of_mem _ hmem)) hv hall ?_
  rw [List.append_assoc, hgave]

/-- A part of it is stored. -/
theorem Follows.part {f : StreamFilter Byte} {whole took gave : List Byte} {v : f.Vars} {j : ℕ}
    (h : Follows f whole took gave v j (.writing call later eof)) (room : ℕ) :
    Follows f whole took (gave ++ (call.drop j).take room) v (j + room)
      (.writing call later eof) := by
  obtain ⟨hne, hv, hall, hgave⟩ := h
  refine ⟨hne, hv, hall, ?_⟩
  rw [← hgave, ← List.drop_drop, List.append_assoc, ← List.append_assoc (List.take _ _),
    List.take_append_drop]

theorem Follows.call_ne_nil {f : StreamFilter Byte} {whole took gave : List Byte} {v : f.Vars}
    {j : ℕ} (h : Follows f whole took gave v j (.writing call later eof)) : call ≠ [] := by
  rintro rfl
  exact h.1 (by simp)

theorem writing_seenEnd (call : List Byte) (later : List (List Byte)) (eof : Bool) :
    (Mode.writing call later eof).seenEnd = eof := by
  cases eof <;> rfl

theorem writing_rank (call : List Byte) (later : List (List Byte)) (eof : Bool) :
    (Mode.writing call later eof).rank ≤ (Mode.writes later eof).rank := by
  cases later <;> cases eof <;> simp [Mode.writes, Mode.rank]

theorem step_console (h : Inv file n s) (hi : i + 1 = n)
    (hmode : s.mode i = .writing call later eof) :
    Local file n s i (s.write n i call later eof) := by
  have hfollows := h.follows i (by omega)
  have hphase : s.outputPhase n i = .idle := by simp [State.outputPhase, hi]
  rw [hmode, hphase] at hfollows
  have hpos := List.length_pos_iff.mpr hfollows.call_ne_nil
  have hrank := writing_rank call later eof
  have hsent := hfollows.sent
  have hall : call.drop (counter .idle) = call := by simp [counter]
  rw [s.gave_last hi, hall] at hsent
  have hstep := local_console h hi (by simp [hmode])
    (fun _ => by rw [writes_hasInput, hmode]; rfl) hsent
    (by rw [writes_seenEnd, hmode, writing_seenEnd]; exact id) (by
      rw [hmode, List.length_append]
      omega)
  simpa [State.write, hi, State.sent, State.setMode] using hstep

theorem Writes.stores {p' : Pipes.State Side} {bs : List Byte} (h : Writes p m)
    (hstores : Stores p p' bs) (hidle : p'.phase .writer = .idle)
    (hout : t.hasOutput = m.hasOutput) : Writes p' t :=
  ⟨(hstores.writeopen.trans h.opened).trans hout.symm, Or.inl hidle⟩

/-- A writer that does not sleep begins its call, or there is room for it. -/
theorem Writes.roomy (h : Writes p m) (hawake : (p.phase .writer).chan = none) :
    p.phase .writer = .idle ∨ p.pipe.unread < PIPESIZE := by
  rcases h.phase with hfirst | ⟨_, _, _, _, -, -, ⟨-, hroom⟩ | ⟨hasleep, -⟩⟩
  · exact Or.inl hfirst
  · exact Or.inr hroom
  · simp [hasleep, Phase.chan] at hawake

/-- The reader of a pipe exits after its writer. -/
theorem Inv.readopen (h : Inv file n s) (hi : i + 1 < n) (hmode : s.mode i ≠ .exited) :
    (s.pipe i).pipe.readopen = true := by
  rw [(h.reads i hi).opened]
  have horder := h.order i hi
  cases hnext : s.mode (i + 1) <;> simp [hnext, hmode, Mode.hasInput, Mode.seenEnd] at horder ⊢

variable {p' : Pipes.State Side} {j room : ℕ}

/-- The rest of a call fits into the pipe, and write() returns. -/
theorem step_write_fits (h : Inv file n s) (hi : i + 1 < n)
    (hmode : s.mode i = .writing call later eof) (hj : j < call.length)
    (hfollows : Follows (program i) (stream program file i) (s.took file i) (s.pipe i).stored
      (s.vars i) j (.writing call later eof))
    (hreads : Reads p' (s.mode (i + 1)) (program (i + 1)).size)
    (hstores : Stores (s.pipe i) p' (call.drop j)) (hidle : p'.phase .writer = .idle) :
    Local file n s i { s with
      mode := Function.update s.mode i (.writes later eof)
      pipe := Function.update s.pipe i p' } := by
  have hwrites := h.writes i hi
  rw [hmode] at hwrites
  have hlen : (call.drop j).length = call.length - j := List.length_drop
  have hrank := writing_rank call later eof
  have hbool := Bool.toNat_le (!((s.pipe i).phase .writer).isIdle)
  refine local_output h hi (by simp [hmode]) hstores.sound
    (hwrites.stores hstores hidle (writes_hasOutput later eof)) hreads hstores.taken
    (Or.inr hstores.reader) (fun _ => by rw [writes_hasInput, hmode]; rfl) ?_ ?_ ?_
  · rw [hstores.stored, hidle]
    exact hfollows.sent
  · rw [writes_seenEnd, hmode, writing_seenEnd]
    exact id
  · rw [hstores.stored, hmode, List.length_append]
    omega

/-- Only a part of it fits, and the writer sleeps before the full pipe. -/
theorem step_write_fills (h : Inv file n s) (hi : i + 1 < n)
    (hmode : s.mode i = .writing call later eof) (hpart : room < call.length - j)
    (hroomy : (s.pipe i).phase .writer = .idle ∨ 0 < room)
    (hfull : (s.pipe i).pipe.unread + room = PIPESIZE)
    (hfollows : Follows (program i) (stream program file i) (s.took file i) (s.pipe i).stored
      (s.vars i) j (.writing call later eof))
    (hreads : Reads p' (s.mode (i + 1)) (program (i + 1)).size)
    (hstores : Stores (s.pipe i) p' ((call.drop j).take room))
    (hasleep : p'.phase .writer =
      .asleep .nwrite (.pipewrite (bytes call) call.length (j + room))) :
    Local file n s i { s with
      mode := Function.update s.mode i (s.mode i)
      pipe := Function.update s.pipe i p' } := by
  have hwrites := h.writes i hi
  rw [hmode] at hwrites
  have htake : ((call.drop j).take room).length = room := by
    rw [List.length_take, List.length_drop]
    omega
  refine local_output h hi (by simp [hmode]) hstores.sound ?_ hreads hstores.taken
    (Or.inr hstores.reader) (fun _ => rfl) ?_ id ?_
  · have hunread := hstores.unread
    rw [hmode]
    refine ⟨hstores.writeopen.trans hwrites.opened, Or.inr ⟨call, later, eof, j + room, rfl, ?_,
      Or.inr ⟨hasleep, ?_⟩⟩⟩
    · omega
    · omega
  · rw [hstores.stored, hasleep, hmode]
    exact hfollows.part room
  · -- the call begins here, or some of it has been stored
    have hmore : (!((s.pipe i).phase .writer).isIdle).toNat < 3 * room + 1 := by
      have hbool := Bool.toNat_le (!((s.pipe i).phase .writer).isIdle)
      rcases hroomy with hfirst | hroom
      · simp [hfirst, Phase.isIdle]
      · omega
    rw [hstores.stored, hasleep, List.length_append, htake]
    simp only [Phase.isIdle, Bool.not_false, Bool.toNat_true]
    simp only [Phase.isIdle] at hmore
    omega

theorem step_write (h : Inv file n s) (hi : i + 1 < n)
    (hmode : s.mode i = .writing call later eof)
    (hawake : ((s.pipe i).phase .writer).chan = none) :
    Local file n s i (s.write n i call later eof) := by
  have hnot : ¬i + 1 = n := by omega
  have hfollows := h.follows i (by omega)
  have hwrites := h.writes i hi
  have hphase : s.outputPhase n i = (s.pipe i).phase .writer := by simp [State.outputPhase, hnot]
  rw [hmode, hphase, s.gave_pipe hnot] at hfollows
  rw [hmode] at hwrites
  obtain ⟨hj, hsection⟩ := writeSection_eq hwrites hfollows.call_ne_nil hawake
  have hopen := h.readopen hi (by simp [hmode])
  have hroomy := hwrites.roomy hawake
  have hbounded := (h.sound i hi).stream.bounded
  generalize counter ((s.pipe i).phase .writer) = j at *
  obtain ⟨hstores, hend⟩ := pipewrite_cases (h.sound i hi) hopen hj.le
  have hlen : (call.drop j).length = call.length - j := List.length_drop
  have hreads := (h.reads i hi).stores hstores (by
    intro hnil
    have hzero := congrArg List.length hnil
    simp only [List.length_take, List.length_nil, hlen] at hzero
    omega)
  by_cases hfit : call.length - j ≤ PIPESIZE - (s.pipe i).pipe.unread
  · rw [if_pos hfit] at hend
    obtain ⟨hidle, hret⟩ := hend
    rw [List.take_of_length_le (hlen.trans_le hfit)] at hstores
    have hstep := step_write_fits h hi hmode hj hfollows hreads hstores hidle
    simpa [State.write, hnot, hsection, hidle, hret, State.sent, State.setMode, State.setPipe,
      Phase.isIdle] using hstep
  · rw [if_neg hfit] at hend
    have hstep := step_write_fills h hi hmode (by omega)
      (hroomy.imp_right Nat.sub_pos_of_lt) (by omega) hfollows hreads hstores hend
    simpa [State.write, hnot, hsection, hend, State.setPipe, Phase.isIdle] using hstep

end Write

/-! exit() -/

theorem step_exiting (h : Inv file n s) (hi : i < n) (hmode : s.mode i = .exiting) :
    Local file n s i ((s.closeInput i).setMode i .leaving) := by
  have hfollows := h.follows i hi
  rw [hmode] at hfollows
  cases i with
  | succ k =>
    have hreads := h.reads k hi
    have hwrites := h.writes k hi
    have hexited := h.order k hi (by simp [hmode, Mode.seenEnd])
    rw [hmode] at hreads
    rw [hexited] at hwrites
    obtain ⟨hstored, htaken, -, -, -, -, hphase⟩ := pipeclose_fields (s.pipe k) false
    have hstep := local_input h hi (by simp [hmode, Mode.isWriting]) (v := s.vars (k + 1))
      (pipeclose_sound (h.sound k hi) false) hreads.close
      (by
        rw [hexited]
        exact hwrites.close_input)
      hstored (Or.inr (by simp [hphase])) (by simp [hmode, Mode.hasOutput])
      (by
        rw [htaken]
        exact hfollows)
      (fun _ => hexited) (by
        have hidle := hreads.idle (by simp)
        rw [htaken, hmode, hphase]
        simp [Mode.rank, hidle, wake, Phase.isIdle])
    simpa [State.closeInput, State.setPipe, State.setMode] using hstep
  | zero =>
    by_cases hlast : 0 + 1 = n
    · rw [s.gave_last hlast] at hfollows
      have hstep := local_console h hlast (by simp [hmode]) (t := .leaving) (by simp) hfollows
        (by simp [hmode, Mode.seenEnd]) (by simp [hmode, Mode.rank])
      simpa [State.closeInput, State.setMode] using hstep
    · have hwrites := h.writes 0 (by omega)
      have hidle : (s.pipe 0).phase .writer = .idle :=
        hwrites.idle (by simp [hmode, Mode.isWriting])
      rw [s.gave_pipe hlast] at hfollows
      have hstep := local_output h (by omega) (by simp [hmode]) (t := .leaving)
        (h.sound 0 (by omega)) (hwrites.mode hidle (by simp [hmode, Mode.hasOutput]))
        (h.reads 0 (by omega)) rfl (Or.inl rfl) (by simp) hfollows (by simp [hmode, Mode.seenEnd])
        (by simp [hmode, Mode.rank])
      simpa [State.closeInput, State.setMode] using hstep

theorem step_leaving (h : Inv file n s) (hi : i < n) (hmode : s.mode i = .leaving) :
    Local file n s i ((s.closeOutput n i).setMode i .exited) := by
  have hfollows := h.follows i hi
  rw [hmode] at hfollows
  by_cases hlast : i + 1 = n
  · rw [s.gave_last hlast] at hfollows
    have hstep := local_console h hlast (by simp [hmode]) (t := .exited)
      (by simp [hmode, Mode.hasInput]) hfollows (by simp [hmode, Mode.seenEnd])
      (by simp [hmode, Mode.rank])
    simpa [State.closeOutput, hlast, State.setMode] using hstep
  · have hwrites := h.writes i (by omega)
    rw [hmode] at hwrites
    have hidle : (s.pipe i).phase .writer = .idle := hwrites.idle rfl
    obtain ⟨hstored, htaken, -, -, -, -, hphase⟩ := pipeclose_fields (s.pipe i) true
    rw [s.gave_pipe hlast] at hfollows
    have hstep := local_output h (by omega) (by simp [hmode]) (t := .exited)
      (pipeclose_sound (h.sound i (by omega)) true) hwrites.close
      (h.reads i (by omega)).close_output htaken (Or.inr (by simp [hphase]))
      (by simp [hmode, Mode.hasInput])
      (by
        rw [hstored]
        exact hfollows)
      (by simp [hmode, Mode.seenEnd]) (by
        rw [hstored, hmode, hphase]
        simp [Mode.rank, hidle, wake, Phase.isIdle])
    simpa [State.closeOutput, hlast, State.setMode, State.setPipe] using hstep

theorem step_local (h : Inv file n s) (hrun : s.Runnable n i) :
    Local file n s i (s.next file n i) := by
  obtain ⟨hi, halive, hin, hout⟩ := hrun
  cases hmode : s.mode i with
  | reading =>
    rw [State.next, hmode]
    cases i with
    | zero => exact step_file h hi hmode
    | succ k => exact step_read h hi hmode hin
  | writing call later eof =>
    rw [State.next, hmode]
    by_cases hlast : i + 1 = n
    · exact step_console h hlast hmode
    · have hawake : ((s.pipe i).phase .writer).chan = none := by
        simpa [State.outputPhase, hlast] using hout
      exact step_write h (by omega) hmode hawake
  | exiting =>
    rw [State.next, hmode]
    exact step_exiting h hi hmode
  | leaving =>
    rw [State.next, hmode]
    exact step_leaving h hi hmode
  | exited => simp [hmode, Mode.alive] at halive
  | failed => simp [hmode, Mode.alive] at halive

end Pipelines

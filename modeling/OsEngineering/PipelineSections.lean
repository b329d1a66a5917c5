import OsEngineering.Pipelines

/-! What the sections of a program do to the pipe it reads and to the pipe it writes. -/
namespace Pipelines

open ByteBlock Pipes PipeStream

variable {p : Pipes.State Side} {m : Mode} {size j : ℕ} {call : List Byte}
  {later : List (List Byte)} {eof : Bool}

/-! One pipe -/

/-- The bytes of a pipe are the ones stored and not taken, and nobody has killed its processes. -/
structure Sound (p : Pipes.State Side) : Prop where
  stream : Stream p
  alive : ∀ side, p.killed side = false

theorem drain_length (m : ℕ) (p : Pipe) : (drain m p).1.length = min m p.unread := by
  induction m generalizing p with
  | zero => simp [drain]
  | succ m ih =>
    by_cases he : p.nread = p.nwrite
    · have hzero := p.unread_eq_zero.mpr he
      simp [drain, he, hzero]
    · have hpop := Pipe.unread_skip he
      have hlen := ih p.skip
      simp only [drain, if_neg he, List.length_cons, hlen]
      omega

/-- read() has returned with `chunk`. -/
structure Takes (p p' : Pipes.State Side) (chunk : List Byte) : Prop where
  taken : p'.taken = p.taken ++ chunk
  stored : p'.stored = p.stored
  ret : p'.ret .reader = chunk.length
  unread : p'.pipe.unread + chunk.length = p.pipe.unread
  reader : p'.phase .reader = .idle
  writer : p'.phase .writer = wake .nwrite (p.phase .writer)
  readopen : p'.pipe.readopen = p.pipe.readopen
  writeopen : p'.pipe.writeopen = p.pipe.writeopen
  sound : Sound p'

/-- A section of write() has stored `bs`. -/
structure Stores (p p' : Pipes.State Side) (bs : List Byte) : Prop where
  stored : p'.stored = p.stored ++ bs
  taken : p'.taken = p.taken
  unread : p'.pipe.unread = p.pipe.unread + bs.length
  reader : p'.phase .reader = wake .nread (p.phase .reader)
  readopen : p'.pipe.readopen = p.pipe.readopen
  writeopen : p'.pipe.writeopen = p.pipe.writeopen
  sound : Sound p'

/-- read() finds an empty pipe that can still be written, or it takes what is there. -/
theorem piperead_cases (h : Sound p) (size : ℕ) :
    (p.pipe.unread = 0 ∧ p.pipe.writeopen = true ∧
      piperead p .reader size = p.move .reader (.asleep .nread (.piperead size))) ∨
    ((p.pipe.unread ≠ 0 ∨ p.pipe.writeopen = false) ∧ ∃ chunk,
      chunk.length = min size p.pipe.unread ∧ Takes p (piperead p .reader size) chunk) := by
  obtain ⟨hread, hwrite, hlen, -⟩ := drain_spec size p.pipe
  have hstream := piperead_stream h.stream .reader size
  by_cases hempty : p.pipe.nread = p.pipe.nwrite ∧ p.pipe.writeopen = true
  · have hzero := p.pipe.unread_eq_zero.mpr hempty.1
    have hwait : piperead p .reader size = p.move .reader (.asleep .nread (.piperead size)) := by
      simp [piperead, hempty, h.alive]
    exact Or.inl ⟨hzero, hempty.2, hwait⟩
  · have hdone : piperead p .reader size =
        ((drained p size).wakeup .nwrite).finish .reader (drain size p.pipe).1.length := by
      simp [piperead, hempty]
    have hsome : p.pipe.unread ≠ 0 ∨ p.pipe.writeopen = false := by
      rw [Ne, p.pipe.unread_eq_zero]
      cases hopen : p.pipe.writeopen with
      | true =>
        left
        intro heq
        exact hempty ⟨heq, hopen⟩
      | false => exact Or.inr (by simp)
    rw [hdone] at hstream ⊢
    exact Or.inr ⟨hsome, (drain size p.pipe).1, drain_length size p.pipe,
      { taken := by simp [State.finish, State.move, State.wakeup, drained]
        stored := by simp [State.finish, State.move, State.wakeup, drained]
        ret := by simp [State.finish]
        unread := by
          change (drain size p.pipe).2.unread + (drain size p.pipe).1.length = p.pipe.unread
          omega
        reader := by simp [State.finish, State.move]
        writer := by simp [State.finish, State.move, State.wakeup, drained]
        readopen := hread
        writeopen := hwrite
        sound := ⟨hstream, h.alive⟩ }⟩

/-- The bytes between two values of the loop counter. -/
theorem range_bytes (hj : j ≤ call.length) (room : ℕ) :
    (List.range' j (min (call.length - j) room)).map (bytes call) = (call.drop j).take room := by
  apply List.ext_getElem
  · simp
    omega
  · intro i hi _
    have hlt : j + i < call.length := by
      simp at hi
      omega
    simp [bytes, hlt]

/-- A section that ends with what `q` holds, but for the writer's own phase and result. -/
theorem Stores.ended {q q' : Pipes.State Side} {bs : List Byte} (h : Stores p q bs)
    (hpipe : q'.pipe = q.pipe) (hstored : q'.stored = q.stored) (htaken : q'.taken = q.taken)
    (hkilled : q'.killed = q.killed) (hreader : q'.phase .reader = q.phase .reader) :
    Stores p q' bs where
  stored := hstored.trans h.stored
  taken := htaken.trans h.taken
  unread := by simpa [hpipe] using h.unread
  reader := hreader.trans h.reader
  readopen := by simpa [hpipe] using h.readopen
  writeopen := by simpa [hpipe] using h.writeopen
  sound :=
    { stream := h.sound.stream.congr (by rw [hpipe]) (by rw [hpipe]) hstored htaken
      alive := by simpa [hkilled] using h.sound.alive }

/-- The loop of pipewrite() and the wakeup() after it. -/
theorem filled_stores (h : Sound p) (hj : j ≤ call.length) :
    Stores p ((filled p (bytes call) call.length j).wakeup .nread)
      ((call.drop j).take (PIPESIZE - p.pipe.unread)) := by
  have hcount : ((call.length : ℤ) - j).toNat = call.length - j := by omega
  obtain ⟨hi, hread, hropen, hwopen, hunread, -⟩ :=
    fill_spec (bytes call) (call.length - j) j p.pipe h.stream.bounded
  have hlen : ((call.drop j).take (PIPESIZE - p.pipe.unread)).length =
      min (call.length - j) (PIPESIZE - p.pipe.unread) := by
    simp
    omega
  have hpipe : (filled p (bytes call) call.length j).pipe =
      (fill (bytes call) (call.length - j) j p.pipe).2 := by simp only [filled, hcount]
  have hstored : (filled p (bytes call) call.length j).stored =
      p.stored ++ (call.drop j).take (PIPESIZE - p.pipe.unread) := by
    rw [← range_bytes hj]
    simp only [filled, hcount, hi, Nat.add_sub_cancel_left]
  exact {
    stored := hstored
    taken := rfl
    unread := by simpa [State.wakeup, hpipe, hlen] using hunread
    reader := rfl
    readopen := by simpa [State.wakeup, hpipe] using hropen
    writeopen := by simpa [State.wakeup, hpipe] using hwopen
    sound :=
      { stream := (filled_stream h.stream (bytes call) call.length j).congr rfl rfl rfl rfl
        alive := h.alive } }

/-- write() stores what there is room for, and sleeps if that was not all. -/
theorem pipewrite_cases (h : Sound p) (hopen : p.pipe.readopen = true) (hj : j ≤ call.length) :
    Stores p (pipewrite p .writer (bytes call) call.length j)
      ((call.drop j).take (PIPESIZE - p.pipe.unread)) ∧
    if call.length - j ≤ PIPESIZE - p.pipe.unread then
      (pipewrite p .writer (bytes call) call.length j).phase .writer = .idle ∧
      (pipewrite p .writer (bytes call) call.length j).ret .writer = call.length
    else (pipewrite p .writer (bytes call) call.length j).phase .writer =
      .asleep .nwrite (.pipewrite (bytes call) call.length (j + (PIPESIZE - p.pipe.unread))) := by
  have hstores := filled_stores h hj
  have hcount : ((call.length : ℤ) - j).toNat = call.length - j := by omega
  have hi : (fill (bytes call) (call.length - j) j p.pipe).1 =
      j + min (call.length - j) (PIPESIZE - p.pipe.unread) :=
    (fill_spec (bytes call) (call.length - j) j p.pipe h.stream.bounded).1
  by_cases hfit : call.length - j ≤ PIPESIZE - p.pipe.unread
  · have hall : ¬((j + min (call.length - j) (PIPESIZE - p.pipe.unread) : ℕ) : ℤ) <
        call.length := by
      omega
    have hdone : pipewrite p .writer (bytes call) call.length j =
        ((filled p (bytes call) call.length j).wakeup .nread).finish .writer call.length := by
      simp only [pipewrite, hcount, hi, if_neg hall]
    rw [if_pos hfit, hdone]
    refine ⟨hstores.ended rfl rfl rfl rfl ?_, ?_, ?_⟩
    · simp [State.finish, State.move]
    · simp [State.finish, State.move]
    · simp [State.finish]
  · have hleft : ((j + min (call.length - j) (PIPESIZE - p.pipe.unread) : ℕ) : ℤ) <
        call.length := by
      omega
    have hmin : min (call.length - j) (PIPESIZE - p.pipe.unread) = PIPESIZE - p.pipe.unread := by
      omega
    rw [hmin] at hi hleft
    have hkeep : (filled p (bytes call) call.length j).pipe.readopen = true :=
      hstores.readopen.trans hopen
    have halive : (filled p (bytes call) call.length j).killed .writer = false := h.alive .writer
    have hwait : pipewrite p .writer (bytes call) call.length j =
        ((filled p (bytes call) call.length j).wakeup .nread).move .writer
          (.asleep .nwrite (.pipewrite (bytes call) call.length
            (j + (PIPESIZE - p.pipe.unread)))) := by
      simp only [pipewrite, hcount, hi, if_pos hleft]
      simp [hkeep, halive, State.wakeup]
    rw [if_neg hfit, hwait]
    refine ⟨hstores.ended rfl rfl rfl rfl ?_, ?_⟩
    · simp [State.move]
    · simp [State.move]

/-! The two programs at a pipe -/

/-- What a program in a mode does at the pipe it reads: if it sleeps there is nothing to read, and
if it has been woken there is something. -/
structure Reads (p : Pipes.State Side) (m : Mode) (size : ℕ) : Prop where
  opened : p.pipe.readopen = m.hasInput
  idle : m ≠ .reading → p.phase .reader = .idle
  phase : p.phase .reader = .idle ∨
    p.phase .reader = .woken (.piperead size) ∧ (p.pipe.unread ≠ 0 ∨ p.pipe.writeopen = false) ∨
    p.phase .reader = .asleep .nread (.piperead size) ∧
      p.pipe.unread = 0 ∧ p.pipe.writeopen = true

/-- What a program in a mode does at the pipe it writes. -/
structure Writes (p : Pipes.State Side) (m : Mode) : Prop where
  opened : p.pipe.writeopen = m.hasOutput
  phase : p.phase .writer = .idle ∨ ∃ call later eof j,
    m = .writing call later eof ∧ j < call.length ∧
    (p.phase .writer = .woken (.pipewrite (bytes call) call.length j) ∧ p.pipe.unread < PIPESIZE ∨
      p.phase .writer = .asleep .nwrite (.pipewrite (bytes call) call.length j) ∧
        p.pipe.unread = PIPESIZE)

/-- The loop counter of a pipewrite() that has slept. -/
def counter : Phase → ℕ
  | .asleep _ (.pipewrite _ _ j) | .woken (.pipewrite _ _ j) => j
  | _ => 0

theorem counter_wake (c : Channel) (f : Phase) : counter (wake c f) = counter f := by
  cases f with
  | idle => rfl
  | woken call => rfl
  | asleep d call =>
    by_cases hd : d = c
    · cases call <;> simp [wake, hd, counter]
    · simp [wake, hd]

theorem readSection_eq (h : Reads p m size) (hawake : (p.phase .reader).chan = none) :
    readSection p size = piperead p .reader size := by
  rcases h.phase with hidle | ⟨hwoken, -⟩ | ⟨hasleep, -⟩
  · simp [readSection, hidle]
  · simp [readSection, hwoken, resume]
  · simp [hasleep, Phase.chan] at hawake

theorem writeSection_eq (h : Writes p (.writing call later eof)) (hcall : call ≠ [])
    (hawake : (p.phase .writer).chan = none) :
    counter (p.phase .writer) < call.length ∧
      writeSection p call =
        pipewrite p .writer (bytes call) call.length (counter (p.phase .writer)) := by
  rcases h.phase with hidle | ⟨call', later', eof', j, hmode, hj, ⟨hwoken, -⟩ | ⟨hasleep, -⟩⟩
  · simpa [writeSection, hidle, counter] using List.length_pos_iff.mpr hcall
  · obtain ⟨rfl, -, -⟩ : call = call' ∧ later = later' ∧ eof = eof' := by simpa using hmode
    simp [writeSection, hwoken, resume, counter, hj]
  · simp [hasleep, Phase.chan] at hawake

/-- A write into the pipe wakes its reader for something. -/
theorem Reads.stores {p' : Pipes.State Side} {bs : List Byte} (h : Reads p m size)
    (hstores : Stores p p' bs) (hbs : bs = [] → p.pipe.unread = PIPESIZE) : Reads p' m size where
  opened := hstores.readopen.trans h.opened
  idle hm := by simp [hstores.reader, h.idle hm, wake]
  phase := by
    have hunread := hstores.unread
    rcases h.phase with hidle | ⟨hwoken, hsome⟩ | ⟨hasleep, hzero, hopen⟩
    · left
      simp [hstores.reader, hidle, wake]
    · right
      left
      refine ⟨by simp [hstores.reader, hwoken, wake], ?_⟩
      rcases hsome with hsome | hclosed
      · left
        omega
      · right
        simpa [hstores.writeopen] using hclosed
    · right
      left
      refine ⟨by simp [hstores.reader, hasleep, wake], Or.inl ?_⟩
      have hne : bs ≠ [] := by
        intro hnil
        have hfull := hbs hnil
        rw [hzero] at hfull
        exact absurd hfull (by decide)
      have hpos := List.length_pos_iff.mpr hne
      omega

/-- A read from the pipe wakes its writer for something. -/
theorem Writes.takes {p' : Pipes.State Side} {chunk : List Byte} (h : Writes p m)
    (htakes : Takes p p' chunk) (hchunk : chunk = [] → p.pipe.unread = 0) : Writes p' m where
  opened := htakes.writeopen.trans h.opened
  phase := by
    have hunread := htakes.unread
    rcases h.phase with hidle | ⟨call, later, eof, j, hmode, hj, ⟨hwoken, hroom⟩ | ⟨hasleep, hfull⟩⟩
    · left
      simp [htakes.writer, hidle, wake]
    · right
      refine ⟨call, later, eof, j, hmode, hj, Or.inl ⟨?_, by omega⟩⟩
      simp [htakes.writer, hwoken, wake]
    · right
      refine ⟨call, later, eof, j, hmode, hj, Or.inl ⟨?_, ?_⟩⟩
      · simp [htakes.writer, hasleep, wake]
      · have hne : chunk ≠ [] := by
          intro hnil
          have hzero := hchunk hnil
          rw [hfull] at hzero
          exact absurd hzero (by decide)
        have hpos := List.length_pos_iff.mpr hne
        omega

/-- A program that has nothing more to do at its standard input. -/
theorem Reads.mode {m' : Mode} (h : Reads p m size) (hidle : p.phase .reader = .idle)
    (hopen : m'.hasInput = m.hasInput) : Reads p m' size :=
  ⟨h.opened.trans hopen.symm, fun _ => hidle, Or.inl hidle⟩

theorem Writes.mode {m' : Mode} (h : Writes p m) (hidle : p.phase .writer = .idle)
    (hopen : m'.hasOutput = m.hasOutput) : Writes p m' :=
  ⟨h.opened.trans hopen.symm, Or.inl hidle⟩

/-! exit() -/

theorem pipeclose_fields (p : Pipes.State Side) (writable : Bool) :
    (pipeclose p writable).stored = p.stored ∧ (pipeclose p writable).taken = p.taken ∧
    (pipeclose p writable).pipe.unread = p.pipe.unread ∧
    (pipeclose p writable).killed = p.killed ∧
    (pipeclose p writable).pipe.readopen = (p.pipe.readopen && writable) ∧
    (pipeclose p writable).pipe.writeopen = (p.pipe.writeopen && !writable) ∧
    (pipeclose p writable).phase =
      fun side => wake (if writable then .nread else .nwrite) (p.phase side) := by
  cases writable <;> simp only [pipeclose] <;> split <;>
    simp [closeEnd, State.wakeup, Pipe.unread]

theorem pipeclose_sound (h : Sound p) (writable : Bool) : Sound (pipeclose p writable) where
  stream := pipeclose_stream h.stream writable
  alive := by
    have hkilled := (pipeclose_fields p writable).2.2.2.1
    simpa [hkilled] using h.alive

/-- The reader exits when the writer has. -/
theorem Reads.close (h : Reads p .exiting size) : Reads (pipeclose p false) .leaving size := by
  obtain ⟨-, -, -, -, hropen, -, hphase⟩ := pipeclose_fields p false
  have hidle := h.idle (by simp)
  refine ⟨by simp [hropen, Mode.hasInput], fun _ => ?_, Or.inl ?_⟩
  · simp [hphase, hidle, wake]
  · simp [hphase, hidle, wake]

theorem Writes.close_input (h : Writes p .exited) : Writes (pipeclose p false) .exited := by
  obtain ⟨-, -, -, -, -, hwopen, hphase⟩ := pipeclose_fields p false
  have hidle : p.phase .writer = .idle := by simpa using h.phase
  refine ⟨by simpa [hwopen] using h.opened, Or.inl ?_⟩
  simp [hphase, hidle, wake]

/-- The writer exits, which ends the sleep of the reader. -/
theorem Writes.close (h : Writes p .leaving) : Writes (pipeclose p true) .exited := by
  obtain ⟨-, -, -, -, -, hwopen, hphase⟩ := pipeclose_fields p true
  have hidle : p.phase .writer = .idle := by simpa using h.phase
  refine ⟨by simp [hwopen, Mode.hasOutput], Or.inl ?_⟩
  simp [hphase, hidle, wake]

theorem Reads.close_output (h : Reads p m size) : Reads (pipeclose p true) m size := by
  obtain ⟨-, -, hunread, -, hropen, hwopen, hphase⟩ := pipeclose_fields p true
  refine ⟨by simpa [hropen] using h.opened, fun hm => by simp [hphase, h.idle hm, wake], ?_⟩
  rcases h.phase with hidle | ⟨hwoken, -⟩ | ⟨hasleep, -⟩
  · left
    simp [hphase, hidle, wake]
  · right
    left
    simp [hphase, hwoken, wake, hwopen]
  · right
    left
    simp [hphase, hasleep, wake, hwopen]

end Pipelines

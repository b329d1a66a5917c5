import OsEngineering.PipeStream
import OsEngineering.StreamFilters

/-! A row of programs that the shell has connected with pipes: each reads its standard input to the
end, writes to its standard output and exits. The first one reads a file, the last one writes to the
console. One event is one section of one program under the lock of a pipe. -/
namespace Pipelines

open ByteBlock TransitionSystem Pipes StreamFilters

/-- The two processes that hold a pipe open. -/
inductive Side where
  | reader
  | writer
  deriving DecidableEq

/-- Where a program is. `writing` has the write() it is in, those after it, and whether read() has
returned 0 before; exit() closes descriptor 0 and then descriptor 1. -/
inductive Mode where
  | reading
  | writing (call : List Byte) (later : List (List Byte)) (eof : Bool)
  | exiting
  | leaving
  | exited
  | failed

namespace Mode

def writes : List (List Byte) → Bool → Mode
  | [], false => .reading
  | [], true => .exiting
  | call :: later, eof => .writing call later eof

def alive : Mode → Bool
  | .exited | .failed => false
  | _ => true

/-- Descriptor 0 is open. -/
def hasInput : Mode → Bool
  | .leaving | .exited => false
  | _ => true

/-- Descriptor 1 is open. -/
def hasOutput : Mode → Bool
  | .exited => false
  | _ => true

end Mode

/-- `off` is where the first program is in its file, and `output` what the last one has written. The
pipe from program `i` to the next one is `pipe i`. -/
structure State (program : ℕ → StreamFilter Byte) where
  off : ℕ
  mode : ℕ → Mode
  vars : (i : ℕ) → (program i).Vars
  pipe : ℕ → Pipes.State Side
  output : List Byte

/-- The buffer of a write(). -/
def bytes (call : List Byte) (k : ℕ) : Byte := call.getD k 0

/-- A section of read(), which begins with the call or when the process has slept in it. -/
def readSection (p : Pipes.State Side) (size : ℕ) : Pipes.State Side :=
  match p.phase .reader with
  | .woken call => resume p .reader call
  | _ => piperead p .reader size

/-- A section of write(). -/
def writeSection (p : Pipes.State Side) (call : List Byte) : Pipes.State Side :=
  match p.phase .writer with
  | .woken call => resume p .writer call
  | _ => pipewrite p .writer (bytes call) call.length 0

variable {program : ℕ → StreamFilter Byte}

/-- Every program is at its start, and pipe() has made the pipes in pages of old data. -/
def initial (program : ℕ → StreamFilter Byte) (old : ℕ → Fin PIPESIZE → Byte) : State program where
  off := 0
  mode := fun _ => .reading
  vars := fun i => (program i).init
  pipe := fun i => Pipes.initial (old i) fun _ => false
  output := []

namespace State

def setMode (s : State program) (i : ℕ) (m : Mode) : State program :=
  { s with mode := Function.update s.mode i m }

def setPipe (s : State program) (i : ℕ) (p : Pipes.State Side) : State program :=
  { s with pipe := Function.update s.pipe i p }

/-- read() has returned `r`, with `chunk` in the buffer. -/
def received (s : State program) (i : ℕ) (r : ℤ) (chunk : List Byte) : State program :=
  if r < 0 then s.setMode i .failed
  else if r = 0 then s.setMode i (.writes ((program i).finish (s.vars i)) true)
  else
    let (v, calls) := (program i).feed (s.vars i) chunk
    { s with vars := Function.update s.vars i v }.setMode i (.writes calls false)

/-- write() of `call` has returned `r`. -/
def sent (s : State program) (i : ℕ) (r : ℤ) (call : List Byte) (later : List (List Byte))
    (eof : Bool) : State program :=
  s.setMode i (if r = call.length then .writes later eof else .failed)

def read (file : List Byte) (s : State program) : ℕ → State program
  | 0 =>
    let chunk := (file.drop s.off).take (program 0).size
    { s with off := s.off + chunk.length }.received 0 chunk.length chunk
  | k + 1 =>
    let p := readSection (s.pipe k) (program (k + 1)).size
    if (p.phase .reader).isIdle then
      (s.setPipe k p).received (k + 1) (p.ret .reader) (p.taken.drop (s.pipe k).taken.length)
    else s.setPipe k p

def write (n : ℕ) (s : State program) (i : ℕ) (call : List Byte) (later : List (List Byte))
    (eof : Bool) : State program :=
  if i + 1 = n then { s with output := s.output ++ call }.sent i call.length call later eof
  else
    let p := writeSection (s.pipe i) call
    if (p.phase .writer).isIdle then (s.setPipe i p).sent i (p.ret .writer) call later eof
    else s.setPipe i p

def closeInput (s : State program) : ℕ → State program
  | 0 => s
  | k + 1 => s.setPipe k (pipeclose (s.pipe k) false)

def closeOutput (n : ℕ) (s : State program) (i : ℕ) : State program :=
  if i + 1 = n then s else s.setPipe i (pipeclose (s.pipe i) true)

/-- Where program `i` is in its call of piperead(). -/
def inputPhase (s : State program) : ℕ → Phase
  | 0 => .idle
  | k + 1 => (s.pipe k).phase .reader

/-- Where program `i` is in its call of pipewrite(). -/
def outputPhase (n : ℕ) (s : State program) (i : ℕ) : Phase :=
  if i + 1 = n then .idle else (s.pipe i).phase .writer

/-- Program `i` has not exited and does not sleep. -/
def Runnable (n : ℕ) (s : State program) (i : ℕ) : Prop :=
  i < n ∧ (s.mode i).alive = true ∧ (s.inputPhase i).chan = none ∧ (s.outputPhase n i).chan = none

def next (file : List Byte) (n : ℕ) (s : State program) (i : ℕ) : State program :=
  match s.mode i with
  | .reading => s.read file i
  | .writing call later eof => s.write n i call later eof
  | .exiting => (s.closeInput i).setMode i .leaving
  | .leaving => (s.closeOutput n i).setMode i .exited
  | .exited | .failed => s

instance (n : ℕ) (s : State program) (i : ℕ) : Decidable (s.Runnable n i) :=
  inferInstanceAs (Decidable (_ ∧ _ ∧ _ ∧ _))

end State

/-- A schedule of the first `n` programs names the one that runs next. -/
def machine (program : ℕ → StreamFilter Byte) (file : List Byte) (n : ℕ) :
    Machine (State program) ℕ :=
  ⟨fun s i => s.Runnable n i, fun s i => s.next file n i⟩

instance (file : List Byte) (n : ℕ) (s : State program) (i : ℕ) :
    Decidable ((machine program file n).enabled s i) :=
  inferInstanceAs (Decidable (s.Runnable n i))

end Pipelines

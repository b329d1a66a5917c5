import OsEngineering.Console
import OsEngineering.Words

/-! runcmd() of lab01's kern/monitor.c: it cuts a line into words in place, and looks up the first
one among the commands. -/
namespace MonitorWords

open ByteBlock Console Words

/-- A string without its terminating zero. -/
abbrev Str := List Byte

def string (s : List Char) : Str := s.map chr

/-- "\t\r\n " -/
def WHITESPACE : Str := string ['\t', '\r', '\n', ' ']

def MAXARGS : ℕ := 16

/-- The names in `commands`. -/
def commands : List Str :=
  [string "help".toList, string "kerninfo".toList, string "backtrace".toList]

/-- The result is a difference of two characters. -/
def strcmp : Str → Str → ℤ
  | [], [] => 0
  | [], d :: _ => -d.toNat
  | c :: _, [] => c.toNat
  | c :: p, d :: q => if c = d then strcmp p q else (c.toNat : ℤ) - d.toNat

/-- The C string at an offset of the memory. -/
def cstring (buf : List Byte) (p : ℕ) : Str := (buf.drop p).takeWhile (· ≠ 0)

/-- "gobble whitespace": the memory and where `buf` points. A run that leaves the memory has no
result. -/
def gobble : ℕ → List Byte → ℕ → Option (List Byte × ℕ)
  | 0, _, _ => none
  | k + 1, buf, p => do
    let c ← buf[p]?
    if c ≠ 0 ∧ c ∈ WHITESPACE then gobble k (buf.set p 0) (p + 1) else some (buf, p)

/-- "scan past next arg" -/
def scanPast : ℕ → List Byte → ℕ → Option ℕ
  | 0, _, _ => none
  | k + 1, buf, p => do
    let c ← buf[p]?
    if c ≠ 0 ∧ c ∉ WHITESPACE then scanPast k buf (p + 1) else some p

inductive Outcome where
  | tooMany
  | nothing
  | unknown (name : Str)
  | call (command : ℕ) (buf : List Byte) (argv : List ℕ)
  deriving DecidableEq

/-- Lookup and invoke the command. -/
def lookup (buf : List Byte) (argv : List ℕ) : Outcome :=
  match argv with
  | [] => .nothing
  | arg :: _ =>
    match commands.findIdx? fun name => strcmp (cstring buf arg) name = 0 with
    | some i => .call i buf argv
    | none => .unknown (cstring buf arg)

/-- The loop over the arguments, and what follows it. -/
def parse : ℕ → List Byte → ℕ → List ℕ → Option Outcome
  | 0, _, _, _ => none
  | k + 1, buf, p, argv => do
    let (buf, p) ← gobble (buf.length + 1) buf p
    let c ← buf[p]?
    if c = 0 then pure (lookup buf argv)
    else if argv.length = MAXARGS - 1 then pure .tooMany
    else
      let q ← scanPast (buf.length + 1) buf p
      parse k buf q (argv ++ [p])

def runcmd (buf : List Byte) : Option Outcome := parse (buf.length + 1) buf 0 []

def White (c : Byte) : Bool := c ∈ WHITESPACE

variable {line w s done rest behind buf : List Byte} {c : Byte} {k p : ℕ} {argv : List ℕ}
  {ws : List Str}

/-! strcmp() -/

theorem strcmp_eq_zero {s t : Str} (hs : 0 ∉ s) (ht : 0 ∉ t) : strcmp s t = 0 ↔ s = t := by
  have hnat : ∀ c : Byte, c ≠ 0 → c.toNat ≠ 0 := fun c hc h => hc (BitVec.eq_of_toNat_eq h)
  induction s generalizing t with
  | nil =>
    cases t with
    | nil => simp [strcmp]
    | cons d t =>
      have hd : d.toNat ≠ 0 := hnat d fun h => ht (by simp [h])
      simpa [strcmp] using hd
  | cons c s ih =>
    cases t with
    | nil =>
      have hc : c.toNat ≠ 0 := hnat c fun h => hs (by simp [h])
      simpa [strcmp] using hc
    | cons d t =>
      have hs' : 0 ∉ s := fun h => hs (List.mem_cons_of_mem c h)
      have ht' : 0 ∉ t := fun h => ht (List.mem_cons_of_mem d h)
      by_cases hcd : c = d
      · simpa [strcmp, hcd] using ih hs' ht'
      · have hne : c.toNat ≠ d.toNat := fun h => hcd (BitVec.eq_of_toNat_eq h)
        have hdiff : strcmp (c :: s) (d :: t) = (c.toNat : ℤ) - d.toNat := by simp [strcmp, hcd]
        have hlists : c :: s ≠ d :: t := by simp [hcd]
        simp only [hdiff, hlists, iff_false]
        omega

/-! The two inner loops -/

/-- A line in memory: what the parser has passed, what it has not, and the bytes behind the line. -/
@[simp] theorem getElem_mark (done s : List Byte) (c : Byte) :
    (done ++ c :: s)[done.length]? = some c := by
  simp

/-- The passed part of the memory when the whitespace before `rest` is gobbled. -/
def gobbled (done rest : List Byte) : List Byte :=
  done ++ List.replicate (rest.takeWhile White).length 0

theorem gobbled_white (hc : White c = true) (done rest : List Byte) :
    gobbled done (c :: rest) = gobbled (done ++ [0]) rest := by
  simp [gobbled, hc, List.replicate_succ]

theorem gobbled_plain (hc : White c = false) (done rest : List Byte) :
    gobbled done (c :: rest) = done := by
  simp [gobbled, hc]

theorem gobble_eq (done behind : List Byte) (hrest : 0 ∉ rest) (hk : rest.length < k) :
    gobble k (done ++ (rest ++ 0 :: behind)) done.length =
      some (gobbled done rest ++ (rest.dropWhile White ++ 0 :: behind),
        (gobbled done rest).length) := by
  induction rest generalizing done k with
  | nil =>
    obtain ⟨k, rfl⟩ : ∃ j, k = j + 1 := ⟨k - 1, by omega⟩
    simp [gobble, gobbled]
  | cons c rest ih =>
    obtain ⟨k, rfl⟩ : ∃ j, k = j + 1 := ⟨k - 1, by omega⟩
    have hc : ¬c = 0#8 := fun h => hrest (by simp [h])
    have hrest' : 0 ∉ rest := fun h => hrest (List.mem_cons_of_mem c h)
    cases hw : White c with
    | true =>
      have hmem : c ∈ WHITESPACE := by simpa [White] using hw
      have hnext := ih (k := k) (done ++ [0]) hrest' (by simpa using hk)
      have hstep : gobble (k + 1) (done ++ (c :: rest ++ 0 :: behind)) done.length =
          gobble k (done ++ [0] ++ (rest ++ 0 :: behind)) (done ++ [0]).length := by
        simp [gobble, hmem, hc]
      simp only [hstep, hnext, gobbled_white hw, List.dropWhile_cons_of_pos hw]
    | false =>
      have hmem : c ∉ WHITESPACE := by simpa [White] using hw
      simp [gobble, hmem, hw, gobbled_plain hw]

theorem scanPast_eq (done behind : List Byte) (hrest : 0 ∉ rest) (hk : rest.length < k) :
    scanPast k (done ++ (rest ++ 0 :: behind)) done.length =
      some (done.length + (rest.takeWhile fun c => !White c).length) := by
  induction rest generalizing done k with
  | nil =>
    obtain ⟨k, rfl⟩ : ∃ j, k = j + 1 := ⟨k - 1, by omega⟩
    simp [scanPast]
  | cons c rest ih =>
    obtain ⟨k, rfl⟩ : ∃ j, k = j + 1 := ⟨k - 1, by omega⟩
    have hc : c ≠ 0 := fun h => hrest (by simp [h])
    have hrest' : 0 ∉ rest := fun h => hrest (List.mem_cons_of_mem c h)
    by_cases hw : White c
    · have hmem : c ∈ WHITESPACE := by simpa [White] using hw
      simp [scanPast, hmem, hw]
    · have hmem : c ∉ WHITESPACE := by simpa [White] using hw
      have hnext := ih (k := k) (done ++ [c]) hrest' (by simpa using hk)
      simp only [List.append_assoc, List.length_append, List.length_singleton,
        List.singleton_append] at hnext
      have hstep : scanPast (k + 1) (done ++ (c :: rest ++ 0 :: behind)) done.length =
          scanPast k (done ++ c :: (rest ++ 0 :: behind)) (done.length + 1) := by
        simp [scanPast, hmem, show ¬c = 0#8 from hc]
      have hlen : done.length + 1 + (rest.takeWhile fun c => !White c).length =
          done.length + ((c :: rest).takeWhile fun c => !White c).length := by
        simp [hw]
        omega
      rw [hstep, hnext, hlen]

/-! The words found so far -/

/-- The pointers are at the words, whatever the bytes behind the passed part of the line are. -/
def Ended (done : List Byte) (argv : List ℕ) (ws : List Str) : Prop :=
  ∀ t, argv.map (cstring (done ++ t)) = ws

/-- The last word may still lack its zero. -/
def Read (done : List Byte) (argv : List ℕ) (ws : List Str) : Prop :=
  ∀ t, argv.map (cstring (done ++ 0 :: t)) = ws

theorem Ended.read (h : Ended done argv ws) : Read done argv ws := fun t => h (0 :: t)

/-- The next whitespace becomes the zero behind the last word. -/
theorem Read.gobbled (h : Read done argv ws) {n : ℕ} (hn : 0 < n) :
    Ended (done ++ List.replicate n 0) argv ws := by
  intro t
  obtain ⟨n, rfl⟩ : ∃ j, n = j + 1 := ⟨n - 1, by omega⟩
  have hread := h (List.replicate n 0 ++ t)
  simpa [List.replicate_succ] using hread

theorem cstring_mark (hw : 0 ∉ w) (t : List Byte) :
    cstring (done ++ (w ++ 0 :: t)) done.length = w := by
  have hplain : ∀ c ∈ w, (decide (c ≠ 0)) = true := by
    intro c hc
    have hne : c ≠ 0 := fun h => hw (h ▸ hc)
    simpa using hne
  simp only [cstring, List.drop_left, List.takeWhile_append_of_pos hplain]
  simp

theorem Ended.scanned (h : Ended done argv ws) (hw : 0 ∉ w) :
    Read (done ++ w) (argv ++ [done.length]) (ws ++ [w]) := by
  intro t
  have hold := h (w ++ 0 :: t)
  simp only [List.append_assoc, List.map_append, List.map_cons, List.map_nil, hold, cstring_mark hw]

/-! The command -/

/-- The command a list of words names. -/
def command (ws : List Str) (buf : List Byte) (argv : List ℕ) : Outcome :=
  match ws with
  | [] => .nothing
  | w :: _ =>
    match commands.findIdx? (· = w) with
    | some i => .call i buf argv
    | none => .unknown w

theorem zero_notMem_cstring (buf : List Byte) (p : ℕ) : 0 ∉ cstring buf p := by
  intro h
  have hne := List.mem_takeWhile_imp h
  simp at hne

theorem zero_notMem_commands {name : Str} (h : name ∈ commands) : 0 ∉ name := by
  revert name
  decide

theorem findIdx_congr {P Q : Str → Bool} {l : List Str} (h : ∀ name ∈ l, P name = Q name) :
    l.findIdx? P = l.findIdx? Q := by
  induction l with
  | nil => simp
  | cons name l ih =>
    have hname := h name (by simp)
    have htail := ih fun name hmem => h name (List.mem_cons_of_mem _ hmem)
    simp [List.findIdx?_cons, hname, htail]

theorem lookup_eq (h : argv.map (cstring buf) = ws) : lookup buf argv = command ws buf argv := by
  cases argv with
  | nil =>
    obtain rfl : [] = ws := by simpa using h
    simp [lookup, command]
  | cons arg argv =>
    obtain rfl : cstring buf arg :: argv.map (cstring buf) = ws := by simpa using h
    have hfind : (commands.findIdx? fun name => strcmp (cstring buf arg) name = 0) =
        commands.findIdx? (· = cstring buf arg) := by
      apply findIdx_congr
      intro name hname
      have heq := strcmp_eq_zero (zero_notMem_cstring buf arg) (zero_notMem_commands hname)
      simp [heq, eq_comm]
    simp only [lookup, command, hfind]

/-! The loop -/

theorem Read.length_eq (h : Read done argv ws) : argv.length = ws.length := by
  have hlen := congrArg List.length (h [])
  simpa using hlen

/-- Gobbling whitespace ends the last word, if there was any. -/
theorem Read.gobble (h : Read done argv ws) (n : ℕ) :
    Read (done ++ List.replicate n 0) argv ws := by
  cases n with
  | zero => simpa using h
  | succ n => exact (h.gobbled (by omega)).read

theorem Read.ended (h : Read done argv ws)
    (hstart : Ended done argv ws ∨ ∀ c ∈ rest.head?, White c = true)
    (hrest : rest.dropWhile White ≠ []) :
    Ended (done ++ List.replicate (rest.takeWhile White).length 0) argv ws := by
  cases rest with
  | nil => simp at hrest
  | cons c rest =>
    by_cases hc : White c
    · exact h.gobbled (by simp [hc])
    · rcases hstart with hended | hwhite
      · simpa [hc] using hended
      · exact absurd (hwhite c (by simp)) hc

theorem mem_of_dropWhile (hword : rest.dropWhile White = c :: s) : ∀ d ∈ c :: s, d ∈ rest := by
  intro d hd
  exact (List.dropWhile_suffix White).subset (hword ▸ hd)

theorem gobbled_length (done rest : List Byte) :
    (gobbled done rest).length + (rest.dropWhile White).length = done.length + rest.length := by
  have hsplit := congrArg List.length
    (List.takeWhile_append_dropWhile (p := White) (l := rest))
  rw [List.length_append] at hsplit
  simp only [gobbled, List.length_append, List.length_replicate]
  omega

/-- The loop leaves at the zero behind the line. -/
theorem parse_end (hrest : 0 ∉ rest) (hend : rest.dropWhile White = []) :
    parse (k + 1) (done ++ (rest ++ 0 :: behind)) done.length argv =
      some (lookup (gobbled done rest ++ 0 :: behind) argv) := by
  have hlen : rest.length < (done ++ (rest ++ 0 :: behind)).length + 1 := by
    simp
    omega
  have hgobble := gobble_eq done behind hrest hlen
  simp only [hend, List.nil_append] at hgobble
  simp only [parse, hgobble]
  simp

/-- One turn of the loop: it saves the next word, unless there is no place left. -/
theorem parse_word (hrest : 0 ∉ rest) (hword : rest.dropWhile White = c :: s) :
    parse (k + 1) (done ++ (rest ++ 0 :: behind)) done.length argv =
      if argv.length = MAXARGS - 1 then some .tooMany
      else parse k ((gobbled done rest ++ (c :: s).takeWhile fun c => !White c) ++
          (((c :: s).dropWhile fun c => !White c) ++ 0 :: behind))
        (gobbled done rest ++ (c :: s).takeWhile fun c => !White c).length
        (argv ++ [(gobbled done rest).length]) := by
  have hsub := mem_of_dropWhile hword
  have hzero : 0 ∉ c :: s := fun h => hrest (hsub 0 h)
  have hc : ¬c = 0#8 := fun h => hzero (by simp [h])
  have hlen : rest.length < (done ++ (rest ++ 0 :: behind)).length + 1 := by
    simp
    omega
  have hgobble := gobble_eq done behind hrest hlen
  have hscan := scanPast_eq (gobbled done rest) behind hzero
    (k := (gobbled done rest ++ (c :: s ++ 0 :: behind)).length + 1) (by simp; omega)
  have hlist : (gobbled done rest ++ (c :: s).takeWhile fun c => !White c) ++
      (((c :: s).dropWhile fun c => !White c) ++ 0 :: behind) =
        gobbled done rest ++ (c :: s ++ 0 :: behind) := by
    simp only [List.append_assoc, ← List.append_assoc (List.takeWhile _ _),
      List.takeWhile_append_dropWhile]
  have hbyte : (gobbled done rest ++ (c :: s ++ 0 :: behind))[(gobbled done rest).length]? =
      some c := getElem_mark _ _ c
  rw [hword] at hgobble
  rw [hlist, List.length_append]
  simp only [parse, hgobble, Option.bind_eq_bind, Option.bind_some, hbyte, hscan]
  simp [hc]

/-- What the parser makes of the rest of a line, when it has found `ws`. -/
theorem parse_run (behind : List Byte) (hk : rest.length < k) (hrest : 0 ∉ rest)
    (hread : Read done argv ws) (hmax : argv.length ≤ MAXARGS - 1)
    (hstart : Ended done argv ws ∨ ∀ c ∈ rest.head?, White c = true) :
    if MAXARGS - 1 < (ws ++ words White rest).length then
      parse k (done ++ (rest ++ 0 :: behind)) done.length argv = some .tooMany
    else ∃ front args, front.length = done.length + rest.length ∧
      args.map (cstring (front ++ 0 :: behind)) = ws ++ words White rest ∧
      parse k (done ++ (rest ++ 0 :: behind)) done.length argv =
        some (command (ws ++ words White rest) (front ++ 0 :: behind) args) := by
  induction k generalizing done rest argv ws with
  | zero => omega
  | succ k ih =>
    have hargs := hread.length_eq
    have hgobbled : Read (gobbled done rest) argv ws := hread.gobble _
    cases hword : rest.dropWhile White with
    | nil =>
      have hwords : words White rest = [] := by
        simpa [hword] using (words_dropWhile White rest).symm
      have hall := gobbled_length done rest
      rw [hword, List.length_nil, Nat.add_zero] at hall
      rw [hwords, List.append_nil, if_neg (by omega), parse_end hrest hword,
        lookup_eq (hgobbled behind)]
      exact ⟨gobbled done rest, argv, hall, hgobbled behind, rfl⟩
    | cons c s =>
      have hsub := mem_of_dropWhile hword
      have hwords : words White rest = ((c :: s).takeWhile fun c => !White c) ::
          words White ((c :: s).dropWhile fun c => !White c) := by
        have hhead := head_dropWhile White rest
        rw [hword] at hhead
        rw [← words_cons (hhead c (by simp)), ← hword, words_dropWhile]
      have hzero : 0 ∉ (c :: s).takeWhile fun c => !White c := fun h =>
        hrest (hsub 0 ((List.takeWhile_prefix _).subset h))
      have hzero' : 0 ∉ (c :: s).dropWhile fun c => !White c := fun h =>
        hrest (hsub 0 ((List.dropWhile_suffix _).subset h))
      have hended : Ended (gobbled done rest) argv ws := hread.ended hstart (by simp [hword])
      have hnext : ∀ d ∈ ((c :: s).dropWhile fun c => !White c).head?, White d = true := by
        intro d hd
        simpa using head_dropWhile (fun c => !White c) (c :: s) d hd
      have hlen := gobbled_length done rest
      rw [hword] at hlen
      have hsplit : ((c :: s).takeWhile fun c => !White c).length +
          ((c :: s).dropWhile fun c => !White c).length = (c :: s).length := by
        rw [← List.length_append, List.takeWhile_append_dropWhile]
      have hpos : 0 < ((c :: s).takeWhile fun c => !White c).length := by
        have hhead := head_dropWhile White rest
        simp [hword] at hhead
        simp [hhead]
      have hgrow : done.length ≤ (gobbled done rest).length := by simp [gobbled]
      rw [hwords, List.append_cons, parse_word hrest hword]
      by_cases hfull : argv.length = MAXARGS - 1
      · have hmany : MAXARGS - 1 < (ws ++ [(c :: s).takeWhile fun c => !White c] ++
            words White ((c :: s).dropWhile fun c => !White c)).length := by
          simp only [List.length_append, List.length_singleton]
          omega
        rw [if_pos hmany, if_pos hfull]
      · have hrun := ih (by omega) hzero' (hended.scanned hzero)
          (by simp only [List.length_append, List.length_singleton]; omega) (Or.inr hnext)
        rw [if_neg hfull]
        simp only [List.length_append] at hrun ⊢
        have hfront : (gobbled done rest).length + ((c :: s).takeWhile fun c => !White c).length +
            ((c :: s).dropWhile fun c => !White c).length = done.length + rest.length := by omega
        rw [hfront] at hrun
        exact hrun

end MonitorWords

import Tinyweb.Options

/-!
# The configuration file

The part of `process_command_line_arguments` that reads the configuration file: `confBody` is one iteration of its loop,
with `fgets` and `sscanf` as the C library has them.  Each line gives at most one setting (`lineSetting`); blank lines,
lines that begin with `#` and lines with a name only give none.  On lines that fit the array of the loop, reading the
file is setting the options of its lines one after another (`loop_confBody`).
-/

namespace Tinyweb

open Clib

def maxConfFileLineSize : Nat := 8 * 1024

/-- `fgets`: the line read into an array of `size` bytes, and the rest of the file. -/
def fgets (size : Nat) (file : List UInt8) : Option (List UInt8 × List UInt8) :=
  if file = [] then none
  else
    let chunk := file.take (size - 1)
    let line := chunk.takeWhile (· != LF) ++ (chunk.dropWhile (· != LF)).take 1
    some (line, file.drop line.length)

def isValueChar (c : UInt8) : Bool := c != CR && c != LF && c != HASH

/-- `sscanf(line, "%s %[^\r\n#]", opt, val)`, if both conversions succeed. -/
def scanSetting (line : List UInt8) : Option (List UInt8 × List UInt8) :=
  let words := line.dropWhile isspace
  let opt := words.takeWhile (!isspace ·)
  let val := ((words.dropWhile (!isspace ·)).dropWhile isspace).takeWhile isValueChar
  if opt = [] ∨ val = [] then none else some (opt, val)

/-- One iteration of the loop over the lines, on the rest of the file and the array of options. -/
def confBody (env : Env) (s : List UInt8 × OptionArray) :
    Option (Step (List UInt8 × OptionArray) (OptionArray × Option Exit)) :=
  match fgets maxConfFileLineSize s.1 with
  | none => some (.exit (s.2, none))
  | some (line, file) =>
    -- the functions on strings see the line up to the first NUL
    let line := line.takeWhile (· != NUL)
    let c := (line.dropWhile isspace).headD NUL
    if c = HASH ∨ c = NUL then some (.next (file, s.2))
    else
      match scanSetting line with
      | none => some (.next (file, s.2))
      | some (opt, val) => do
        match ← setOption env s.2 opt val with
        | (options, none) => return .next (file, options)
        | (options, some exit) => return .exit (options, some exit)

/-! ### The settings of a file -/

/-- The setting of a line without its end: the first word, and the text behind it up to CR or `#`, without the blanks in
front. -/
def lineSetting (line : List UInt8) : Option (List UInt8 × List UInt8) :=
  let words := line.dropWhile isspace
  let name := words.takeWhile (!isspace ·)
  let value := ((words.dropWhile (!isspace ·)).dropWhile isspace).takeWhile fun c => c != CR && c != HASH
  if name = [] ∨ name.head? = some HASH ∨ value = [] then none else some (name, value)

def fileSettings (file : List UInt8) : List (List UInt8 × List UInt8) := (file.splitOn LF).filterMap lineSetting

/-! ### Reading one line -/

theorem fgets_line {size : Nat} {l : List UInt8} (hl : LF ∉ l) (hlen : l.length + 1 < size) (rest : List UInt8) :
    fgets size (l ++ LF :: rest) = some (l ++ [LF], rest) := by
  obtain ⟨d, hd⟩ : ∃ d, size - 1 = l.length + (d + 1) := ⟨size - 1 - l.length - 1, by omega⟩
  have hchunk : (l ++ LF :: rest).take (size - 1) = l ++ LF :: rest.take d := by
    rw [hd, List.take_length_add_append, List.take_succ_cons]
  have hne : l ++ LF :: rest ≠ [] := List.append_ne_nil_of_right_ne_nil _ (List.cons_ne_nil _ _)
  obtain ⟨htake, hdrop⟩ := span_ne hl (rest.take d)
  have hrest : (l ++ LF :: rest).drop (l ++ [LF]).length = rest := by
    have hsplit : l ++ LF :: rest = (l ++ [LF]) ++ rest := by rw [List.append_assoc]; rfl
    rw [hsplit, List.drop_left]
  rw [fgets, if_neg hne]
  dsimp only
  rw [hchunk, htake, hdrop, List.take_succ_cons, List.take_zero, hrest]

theorem fgets_last {size : Nat} {l : List UInt8} (hl : LF ∉ l) (hlen : l.length + 1 < size) (hne : l ≠ []) :
    fgets size l = some (l, []) := by
  obtain ⟨htake, hdrop⟩ := span_ne_self hl
  have hchunk : l.take (size - 1) = l := List.take_of_length_le (by omega)
  rw [fgets, if_neg hne]
  dsimp only
  rw [hchunk, htake, hdrop, List.take_nil, List.append_nil, List.drop_length]

section

variable {α : Type} {p : α → Bool} {l tail : List α}

private theorem takeWhile_append_tail (h : tail.takeWhile p = []) : (l ++ tail).takeWhile p = l.takeWhile p := by
  rw [List.takeWhile_append, h, List.append_nil]
  split
  · rename_i hlen
    exact ((List.takeWhile_prefix p).eq_of_length hlen).symm
  · rfl

private theorem dropWhile_append_tail (h : tail.dropWhile p = tail) :
    (l ++ tail).dropWhile p = l.dropWhile p ++ tail := by
  rw [List.dropWhile_append, h]
  split
  · rename_i hnil
    rw [List.isEmpty_iff.1 hnil, List.nil_append]
  · rfl

end

/-- What may stand behind a line: its end, or the end of the file. -/
private def IsEnd (tail : List UInt8) : Prop := tail = [LF] ∨ tail = []

private theorem dropWhile_isspace_end {l tail : List UInt8} (ht : IsEnd tail) :
    (l ++ tail).dropWhile isspace = if l.dropWhile isspace = [] then [] else l.dropWhile isspace ++ tail := by
  have htail : tail.dropWhile isspace = [] := by rcases ht with rfl | rfl <;> rfl
  rw [List.dropWhile_append, htail]
  by_cases hnil : l.dropWhile isspace = []
  · rw [if_pos (List.isEmpty_iff.2 hnil), if_pos hnil]
  · rw [if_neg (fun h => hnil (List.isEmpty_iff.1 h)), if_neg hnil]

private theorem takeWhile_value {v tail : List UInt8} (hv : LF ∉ v) (ht : IsEnd tail) :
    (v ++ tail).takeWhile isValueChar = v.takeWhile fun c => c != CR && c != HASH := by
  have htail : tail.takeWhile isValueChar = [] := by rcases ht with rfl | rfl <;> rfl
  rw [takeWhile_append_tail htail]
  induction v with
  | nil => rfl
  | cons c v ih =>
    simp only [List.mem_cons, not_or] at hv
    have hne : (c != LF) = true := bne_iff_ne.2 (Ne.symm hv.1)
    have hc : isValueChar c = (c != CR && c != HASH) := by
      rw [isValueChar, hne, Bool.and_true]
    rw [List.takeWhile_cons, List.takeWhile_cons, hc, ih hv.2]

/-- The two conversions on a line that is not blank. -/
private theorem scanSetting_line {l tail : List UInt8} (hl : LF ∉ l) (ht : IsEnd tail)
    (hne : l.dropWhile isspace ≠ []) : scanSetting (l ++ tail) =
      if (l.dropWhile isspace).takeWhile (!isspace ·) = [] ∨
          (((l.dropWhile isspace).dropWhile (!isspace ·)).dropWhile isspace).takeWhile
            (fun c => c != CR && c != HASH) = []
      then none
      else some ((l.dropWhile isspace).takeWhile (!isspace ·),
        (((l.dropWhile isspace).dropWhile (!isspace ·)).dropWhile isspace).takeWhile fun c =>
          c != CR && c != HASH) := by
  have hwords := @dropWhile_isspace_end l tail ht
  rw [if_neg hne] at hwords
  generalize hw : l.dropWhile isspace = words at hwords ⊢
  have hwl : LF ∉ words := by
    rw [← hw]
    exact fun h => hl ((List.dropWhile_sublist _).subset h)
  have hstop : tail.takeWhile (!isspace ·) = [] ∧ tail.dropWhile (!isspace ·) = tail := by
    rcases ht with rfl | rfl <;> exact ⟨rfl, rfl⟩
  have hopt : (words ++ tail).takeWhile (!isspace ·) = words.takeWhile (!isspace ·) := takeWhile_append_tail hstop.1
  have hrest : (words ++ tail).dropWhile (!isspace ·) = words.dropWhile (!isspace ·) ++ tail :=
    dropWhile_append_tail hstop.2
  have hval : ((words.dropWhile (!isspace ·) ++ tail).dropWhile isspace).takeWhile isValueChar =
      ((words.dropWhile (!isspace ·)).dropWhile isspace).takeWhile fun c => c != CR && c != HASH := by
    rw [dropWhile_isspace_end ht]
    split
    · rename_i hnil
      rw [hnil]
      rfl
    · apply takeWhile_value _ ht
      exact fun h => hwl ((List.dropWhile_sublist _).subset ((List.dropWhile_sublist _).subset h))
  simp only [scanSetting, hwords, hopt, hrest, hval]

private theorem head_words {l words : List UInt8} {c : UInt8} (h : l.dropWhile isspace = c :: words) :
    ((c :: words).takeWhile (!isspace ·)).head? = some c := by
  have hc : isspace c = false := (dropWhile_cons_imp h).1
  rw [List.takeWhile_cons, hc]
  rfl

/-- The iteration for a line: set its option, if it has one, and go on with the rest of the file. -/
private theorem confBody_line {env : Env} {options : OptionArray} {file rest l tail : List UInt8} (hl : LF ∉ l)
    (hnul : NUL ∉ l) (ht : IsEnd tail) (hfgets : fgets maxConfFileLineSize file = some (l ++ tail, rest)) :
    confBody env (file, options) =
      match lineSetting l with
      | none => some (.next (rest, options))
      | some (name, value) =>
        (setOption env options name value).map fun r =>
          match r with
          | (options, none) => .next (rest, options)
          | (options, some exit) => .exit (options, some exit) := by
  have hnul' : NUL ∉ l ++ tail := by
    intro h
    rcases List.mem_append.1 h with h | h
    · exact hnul h
    · rcases ht with rfl | rfl
      · exact absurd (List.mem_singleton.1 h) (by decide)
      · exact List.not_mem_nil h
  have hline : (l ++ tail).takeWhile (· != NUL) = l ++ tail := (span_ne_self hnul').1
  have hwords := @dropWhile_isspace_end l tail ht
  unfold confBody
  dsimp only
  rw [hfgets]
  dsimp only
  rw [hline, hwords]
  cases hw : l.dropWhile isspace with
  | nil =>
    have hnone : lineSetting l = none := by
      simp [lineSetting, hw]
    rw [hnone]
    rfl
  | cons c words =>
    have hne : c :: words ≠ [] := List.cons_ne_nil _ _
    have hcl : c ∈ l := (List.dropWhile_sublist isspace).subset (by rw [hw]; exact List.mem_cons_self ..)
    have hc0 : c ≠ NUL := fun h => hnul (h ▸ hcl)
    have hhead := head_words hw
    rw [if_neg hne, List.cons_append, List.headD_cons]
    by_cases hhash : c = HASH
    · subst hhash
      have hnone : lineSetting l = none := by
        simp only [lineSetting, hw, hhead, or_true, true_or, ↓reduceIte]
      rw [if_pos (Or.inl rfl), hnone]
    · have hscan := scanSetting_line hl ht (by rw [hw]; exact hne)
      have hline' : lineSetting l = scanSetting (l ++ tail) := by
        have hfirst : ¬ ((c :: words).takeWhile (!isspace ·)).head? = some HASH := by
          rw [hhead]
          exact fun h => hhash (Option.some.inj h)
        rw [hscan]
        simp only [lineSetting, hw, hfirst, false_or]
      rw [if_neg (by simp [hhash, hc0]), hline']
      cases scanSetting (l ++ tail) with
      | none => rfl
      | some setting =>
        obtain ⟨name, value⟩ := setting
        dsimp only
        cases setOption env options name value with
        | none => rfl
        | some r =>
          obtain ⟨options, died⟩ := r
          cases died with
          | none => rfl
          | some exit => rfl

/-! ### Reading the file -/

private theorem loop_line {env : Env} {options : OptionArray} {file rest l tail : List UInt8} {fuel : Nat}
    {settings : List (List UInt8 × List UInt8)} (hl : LF ∉ l) (hnul : NUL ∉ l) (ht : IsEnd tail)
    (hfgets : fgets maxConfFileLineSize file = some (l ++ tail, rest))
    (hrest : ∀ options, loop (confBody env) fuel (rest, options) = .ofOption (setOptions env options settings)) :
    loop (confBody env) (fuel + 1) (file, options) =
      .ofOption (setOptions env options ((lineSetting l).toList ++ settings)) := by
  have hbody := @confBody_line env options file rest l tail hl hnul ht hfgets
  cases hset : lineSetting l with
  | none =>
    rw [hset] at hbody
    rw [loop_next hbody, hrest]
    rfl
  | some setting =>
    obtain ⟨name, value⟩ := setting
    rw [hset] at hbody
    dsimp only at hbody
    rw [Option.toList_some, List.singleton_append, setOptions]
    cases hr : setOption env options name value with
    | none =>
      rw [hr] at hbody
      exact loop_fault hbody
    | some r =>
      obtain ⟨options, died⟩ := r
      rw [hr] at hbody
      cases died with
      | none =>
        rw [loop_next hbody, hrest]
        rfl
      | some exit => exact loop_exit hbody

/-- Reading a file whose lines fit the array is setting the options of its lines. -/
theorem loop_confBody {env : Env} (lines : List (List UInt8)) :
    ∀ {options : OptionArray} {fuel : Nat}, (∀ l ∈ lines, (LF ∉ l ∧ NUL ∉ l) ∧ l.length + 1 < maxConfFileLineSize) →
      ([LF].intercalate lines).length < fuel →
      loop (confBody env) fuel ([LF].intercalate lines, options) =
        .ofOption (setOptions env options (lines.filterMap lineSetting)) := by
  have hend (options : OptionArray) (fuel : Nat) :
      loop (confBody env) (fuel + 1) ([], options) = .ofOption (setOptions env options []) :=
    loop_exit rfl
  induction lines with
  | nil =>
    intro options fuel hlines hfuel
    obtain ⟨fuel, rfl⟩ : ∃ f, fuel = f + 1 := ⟨fuel - 1, by omega⟩
    exact hend options fuel
  | cons l lines ih =>
    intro options fuel hlines hfuel
    obtain ⟨⟨hlf, hnul⟩, hlen⟩ := hlines l (List.mem_cons_self ..)
    obtain ⟨fuel, rfl⟩ : ∃ f, fuel = f + 1 := ⟨fuel - 1, by omega⟩
    have hfilter : (l :: lines).filterMap lineSetting = (lineSetting l).toList ++ lines.filterMap lineSetting := by
      rw [List.filterMap_cons]
      cases lineSetting l <;> rfl
    rw [hfilter]
    cases lines with
    | nil =>
      rw [List.intercalate_singleton] at hfuel ⊢
      by_cases hne : l = []
      · subst hne
        exact hend options fuel
      · obtain ⟨fuel, rfl⟩ : ∃ f, fuel = f + 1 := by
          have := List.length_pos_iff.2 hne
          exact ⟨fuel - 1, by omega⟩
        have hfgets : fgets maxConfFileLineSize l = some (l ++ [], []) := by
          rw [List.append_nil]
          exact fgets_last hlf hlen hne
        exact loop_line hlf hnul (Or.inr rfl) hfgets fun options => hend options fuel
    | cons l' lines =>
      rw [List.intercalate_cons_cons, List.append_assoc] at hfuel ⊢
      have hfgets := fgets_line hlf hlen ([LF].intercalate (l' :: lines))
      apply loop_line hlf hnul (Or.inl rfl) hfgets
      intro options
      apply ih (fun x hx => hlines x (List.mem_cons_of_mem _ hx))
      simp only [List.length_append, List.length_singleton] at hfuel
      omega

end Tinyweb

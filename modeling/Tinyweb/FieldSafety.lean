import Tinyweb.FieldLookup

/-!
# The arrays of `cgi-getfield`

`getfieldMain` fails at the first access outside one of its arrays: a byte read into `qbuf` or the terminator behind
them, a byte stored in the pair buffer, or the copy of the value.  `getfieldMain_ne_fault_iff` says for which arguments
and which input this does not happen.
-/

namespace Tinyweb

open Clib

variable {n : Nat}

/-- The lookup of `key` in the query `q` stays inside a pair buffer of `n` bytes: every segment up to the selected one
fits, and what is delivered for that one lies inside the buffer. -/
def SafeQuery (n : Nat) (key : CStr) (q : List UInt8) : Prop :=
  ∀ pre w post, q.splitOn AMP = pre ++ w :: post → (∀ x ∈ pre, ¬ (parseSegment x).Matches key) →
    (parseSegment w).Fits n ∧ ((parseSegment w).Matches key → Deliverable n (parseSegment w) (markAfter pre 0))

private theorem forall_split_cons {α : Type} {P : List α → α → Prop} {w : α} {ws : List α} :
    (∀ pre x post, w :: ws = pre ++ x :: post → P pre x) ↔
      P [] w ∧ ∀ pre x post, ws = pre ++ x :: post → P (w :: pre) x := by
  constructor
  · intro h
    exact ⟨h [] w ws rfl, fun pre x post hsplit => h (w :: pre) x post (by rw [hsplit]; rfl)⟩
  · rintro ⟨hw, hws⟩ pre x post hsplit
    cases pre with
    | nil =>
      obtain ⟨rfl, rfl⟩ := List.cons.inj hsplit
      exact hw
    | cons y pre =>
      obtain ⟨rfl, hrest⟩ := List.cons.inj hsplit
      exact hws pre x post hrest

private theorem lookup_ne_fault_iff (key : CStr) (ws : List (List UInt8)) (i j : Nat) (buf : Mem n) :
    lookup key ws i j buf ≠ .fault ↔
      ∀ pre w post, ws = pre ++ w :: post → (∀ x ∈ pre, ¬ (parseSegment x).Matches key) →
        (parseSegment w).Fits n ∧ ((parseSegment w).Matches key →
          Deliverable n (parseSegment w) (markAfter pre j)) := by
  induction ws generalizing i j buf with
  | nil =>
    refine ⟨fun _ pre w post h => ?_, fun _ => nofun⟩
    exact absurd h.symm (List.append_ne_nil_of_right_ne_nil _ (List.cons_ne_nil _ _))
  | cons w ws ih =>
    rw [lookup, forall_split_cons]
    by_cases hlen : n ≤ (parseSegment w).cells.length
    · have hfits : ¬ (parseSegment w).Fits n := Nat.not_lt.2 hlen
      simp [hlen, hfits]
    · have hfits : (parseSegment w).Fits n := Nat.not_le.1 hlen
      by_cases hmatch : (parseSegment w).Matches key
      · by_cases hdel : Deliverable n (parseSegment w) j
        · obtain ⟨psize, pval, hret⟩ := deliverSegment_of_deliverable hdel (i + w.length)
            (buf.overlay ((parseSegment w).cells ++ [0]))
          simp [hlen, hmatch, hret, hfits, markAfter, hdel]
        · simp [hlen, hmatch, deliverSegment_of_not_deliverable hdel, markAfter, hdel]
      · have hrest := ih (i + w.length + 1) ((parseSegment w).mark j) (buf.overlay ((parseSegment w).cells ++ [0]))
        simpa [hlen, hmatch, hfits, markAfter] using hrest

private theorem length_pval_le {key : CStr} {ws : List (List UInt8)} {i j i' : Nat} {buf : Mem n} {psize : Int}
    {pval : List UInt8} (h : lookup key ws i j buf = .ret (.found psize pval i')) : pval.length ≤ n := by
  induction ws generalizing i j buf with
  | nil => cases h
  | cons w ws ih =>
    rw [lookup] at h
    by_cases hlen : n ≤ (parseSegment w).cells.length
    · simp [hlen] at h
    · by_cases hmatch : (parseSegment w).Matches key
      · simp only [hlen, hmatch, ↓reduceIte] at h
        by_cases hdel : Deliverable n (parseSegment w) j
        · cases hv : (parseSegment w).value with
          | some v =>
            rw [deliverSegment_of_some hv, Outcome.ret.injEq, QueryResult.found.injEq] at h
            simp only [Segment.cells, hv, List.length_append, List.length_cons] at hlen
            rw [← h.2.1]
            omega
          | none =>
            rcases hdel with hne | ⟨hj, hn⟩
            · exact absurd hv hne
            · rw [deliverSegment_of_none hv hj hn, Outcome.ret.injEq, QueryResult.found.injEq] at h
              rw [← h.2.1, List.length_take]
              omega
        · rw [deliverSegment_of_not_deliverable hdel] at h
          cases h
      · simp only [hlen, hmatch, ↓reduceIte] at h
        exact ih h

private theorem getfieldMain_of_full {prog key : CStr} {args : List CStr} {stdin : List UInt8}
    (h : maxQuerySize ≤ (stdin.take (toSizeT (readLength args))).length) (qbuf : Mem maxQuerySize) (buf : Mem 256) :
    getfieldMain (prog :: key :: args) stdin qbuf buf = .fault := by
  simp only [getfieldMain, Mem.write]
  generalize stdin.take (toSizeT (readLength args)) = input at h ⊢
  by_cases hle : input.length ≤ maxQuerySize
  · have hpos : input.length > 0 := Nat.lt_of_lt_of_le (by decide) h
    have hstore := Mem.store_overlay qbuf input 0
    rw [if_neg (Nat.not_lt.2 h)] at hstore
    simp only [hle, ↓reduceIte, hpos, hstore]
  · simp only [hle, ↓reduceIte]

/-- With room for the terminator the program fails exactly if the lookup does. -/
private theorem getfieldMain_of_lt {prog key : CStr} {args : List CStr} {stdin : List UInt8}
    (hne : stdin.take (toSizeT (readLength args)) ≠ [])
    (h : (stdin.take (toSizeT (readLength args))).length < maxQuerySize) (qbuf : Mem maxQuerySize) (buf : Mem 256) :
    getfieldMain (prog :: key :: args) stdin qbuf buf ≠ .fault ↔
      SafeQuery 256 key ((stdin.take (toSizeT (readLength args))).takeWhile (· != NUL)) := by
  simp only [getfieldMain, Mem.write]
  generalize stdin.take (toSizeT (readLength args)) = input at h hne ⊢
  have hpos : input.length > 0 := List.length_pos_iff.2 hne
  have hstore := Mem.store_overlay qbuf input 0
  rw [if_pos h] at hstore
  have hcells : (qbuf.overlay (input ++ [0])).cells = input ++ NUL :: qbuf.cells.drop (input ++ [0]).length := by
    rw [Mem.cells_overlay _ (by rw [List.length_append]; exact h), List.append_assoc]
    rfl
  obtain ⟨junk, hjunk⟩ := exists_takeWhile_nul input (qbuf.cells.drop (input ++ [0]).length)
  have hrun : decodeQuery (qbuf.overlay (input ++ [0])).cells key buf =
      lookup key ((input.takeWhile (· != NUL)).splitOn AMP) 0 0 buf := by
    rw [hcells, hjunk, decodeQuery_eq_lookup (not_mem_takeWhile_ne NUL input)]
  rw [SafeQuery, ← lookup_ne_fault_iff key _ 0 0 buf]
  simp only [Nat.le_of_lt h, ↓reduceIte, hpos, hstore, hrun]
  cases hres : lookup key ((input.takeWhile (· != NUL)).splitOn AMP) 0 0 buf with
  | fault => exact ⟨fun h => absurd rfl h, fun h => absurd rfl h⟩
  | running => exact ⟨fun _ => nofun, fun _ => nofun⟩
  | ret r =>
    cases r with
    | missing => exact ⟨fun _ => nofun, fun _ => nofun⟩
    | found psize pval i =>
      have hval : pval.length ≤ maxQuerySize := Nat.le_trans (length_pval_le hres) (by decide)
      simp [hval]

/-- The program stays inside its arrays if and only if it has no key, or reads nothing, or reads fewer bytes than
`MAX_QUERY_SIZE` and the lookup stays inside the pair buffer. -/
theorem getfieldMain_ne_fault_iff (argv : List CStr) (stdin : List UInt8) (qbuf : Mem maxQuerySize) (buf : Mem 256) :
    getfieldMain argv stdin qbuf buf ≠ .fault ↔
      ∀ prog key args, argv = prog :: key :: args →
        stdin.take (toSizeT (readLength args)) = [] ∨
          ((stdin.take (toSizeT (readLength args))).length < maxQuerySize ∧
            SafeQuery 256 key ((stdin.take (toSizeT (readLength args))).takeWhile (· != NUL))) := by
  rcases argv with _ | ⟨prog, _ | ⟨key, args⟩⟩
  · exact ⟨fun _ _ _ _ => nofun, fun _ => nofun⟩
  · exact ⟨fun _ _ _ _ => nofun, fun _ => nofun⟩
  · have hargs : ∀ {P : CStr → List CStr → Prop}, (∀ prog' key' args', prog :: key :: args = prog' :: key' :: args' →
        P key' args') ↔ P key args := by
      intro P
      refine ⟨fun h => h prog key args rfl, ?_⟩
      rintro h _ _ _ ⟨⟩
      exact h
    rw [hargs]
    by_cases hne : stdin.take (toSizeT (readLength args)) = []
    · have hmain : getfieldMain (prog :: key :: args) stdin qbuf buf = .ret ([], -1) := by
        simp [getfieldMain, Mem.write, hne]
      rw [hmain]
      exact ⟨fun _ => Or.inl hne, fun _ => nofun⟩
    · by_cases hlt : (stdin.take (toSizeT (readLength args))).length < maxQuerySize
      · rw [getfieldMain_of_lt hne hlt]
        exact ⟨fun h => Or.inr ⟨hlt, h⟩, fun h => (h.resolve_left hne).2⟩
      · rw [getfieldMain_of_full (Nat.not_lt.1 hlt)]
        exact ⟨fun h => absurd rfl h, fun h => absurd (h.resolve_left hne).1 hlt⟩

/-- A completely full read: the terminator is stored behind the end of `qbuf`. -/
theorem getfieldMain_full_read :
    getfieldMain [keyB, keyB] (List.replicate 1024 97) (Mem.fill maxQuerySize 0) (Mem.fill 256 0) = .fault := by
  apply getfieldMain_of_full
  have hlen : toSizeT (readLength []) = 1024 := by decide
  rw [hlen, List.length_take, List.length_replicate]
  decide

end Tinyweb

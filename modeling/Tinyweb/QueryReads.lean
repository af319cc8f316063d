import Tinyweb.GetField

/-!
# What `decode_query` reads of its query

An iteration of the loop reads the byte at its index `i` and, behind a `%`, one or two bytes more (`decodeReads`); it
depends on nothing else of the query (`decodeBody_congr`).  An iteration that goes on has moved `i` forward, over bytes
that are not NUL, so `i` never gets behind the terminator (`index_next`).  Hence the bytes behind the terminator are not
read, the loop ends, and they do not matter (`decodeQuery_reads`).
-/

namespace Tinyweb

open Clib

variable {n : Nat}

/-- The indices of `query` that an iteration at index `i` reads. -/
def decodeReads (query : List UInt8) (i : Nat) : List Nat :=
  if query[i]? = some PERCENT then
    if (query[i + 1]?).any fun l => hex l ≥ 0 then [i, i + 1, i + 2] else [i, i + 1]
  else [i]

theorem self_mem_decodeReads (query : List UInt8) (i : Nat) : i ∈ decodeReads query i := by
  unfold decodeReads
  split
  · split <;> exact List.mem_cons_self ..
  · exact List.mem_cons_self ..

/-- An iteration depends on the query through the bytes it reads only. -/
theorem decodeBody_congr {query query' : List UInt8} {s : QueryState n} (key : CStr)
    (h : ∀ x ∈ decodeReads query s.i, query[x]? = query'[x]?) :
    decodeBody query key s = decodeBody query' key s := by
  have hi := h s.i (self_mem_decodeReads query s.i)
  unfold decodeBody
  rw [← hi]
  cases hc : query[s.i]? with
  | none => rfl
  | some c =>
    by_cases hpercent : c = PERCENT
    · subst hpercent
      have hreads : decodeReads query s.i =
          if (query[s.i + 1]?).any fun l => hex l ≥ 0 then [s.i, s.i + 1, s.i + 2] else [s.i, s.i + 1] := by
        rw [decodeReads, if_pos hc]
      rw [hreads] at h
      have h1 : query[s.i + 1]? = query'[s.i + 1]? := by
        apply h
        split <;> simp
      rw [← h1]
      cases hl : query[s.i + 1]? with
      | none => rfl
      | some l =>
        by_cases hhex : hex l ≥ 0
        · have h2 : query[s.i + 2]? = query'[s.i + 2]? := by
            apply h
            rw [if_pos (by simpa [hl] using hhex)]
            simp
          rw [← h2]
        · simp [hhex]
    · simp [hpercent]

/-! ### The index stays at or before the terminator -/

section

variable {q junk : List UInt8} {i : Nat} {c : UInt8}

private theorem lt_of_ne_nul (hi : i ≤ q.length) (hc : (q ++ NUL :: junk)[i]? = some c) (hne : c ≠ NUL) :
    i < q.length := by
  by_contra hge
  have heq : i = q.length := by omega
  subst heq
  rw [List.getElem?_append_right (Nat.le_refl _), Nat.sub_self, List.getElem?_cons_zero] at hc
  exact hne (Option.some.inj hc).symm

private theorem ne_nul_of_hex (h : hex c ≥ 0) : c ≠ NUL := by
  rintro rfl
  exact absurd h (by decide)

/-- All that is read from an index at or before the terminator is at or before the terminator. -/
theorem decodeReads_le (hi : i ≤ q.length) : ∀ x ∈ decodeReads (q ++ NUL :: junk) i, x ≤ q.length := by
  intro x hx
  unfold decodeReads at hx
  split at hx
  · rename_i hc
    have hlt : i < q.length := lt_of_ne_nul hi hc (by decide)
    split at hx
    · rename_i hany
      obtain ⟨l, hl, hhex⟩ := (Option.any_eq_true _ _).1 hany
      have hlt' : i + 1 < q.length := lt_of_ne_nul hlt hl (ne_nul_of_hex (of_decide_eq_true hhex))
      simp only [List.mem_cons, List.not_mem_nil, or_false] at hx
      omega
    · simp only [List.mem_cons, List.not_mem_nil, or_false] at hx
      omega
  · simp only [List.mem_cons, List.not_mem_nil, or_false] at hx
    omega

private theorem index_push {s s' : QueryState n} {b : UInt8} {k : Nat} (h : s.push b k = some (.next s')) :
    s'.i = k := by
  unfold QueryState.push at h
  obtain ⟨buf, -, hnext⟩ := Option.bind_eq_some_iff.1 h
  cases hnext
  rfl

private theorem deliver_ne_next (s s' : QueryState n) : s.deliver ≠ some (.next s') := by
  intro h
  unfold QueryState.deliver at h
  obtain ⟨value, -, h⟩ := Option.bind_eq_some_iff.1 h
  dsimp only at h
  split at h
  · cases h
  · obtain ⟨pval, -, h⟩ := Option.bind_eq_some_iff.1 h
    cases h

private theorem index_endSegment {s s' : QueryState n} {key : CStr} {done : Bool}
    (h : s.endSegment key done = some (.next s')) : done = false ∧ s'.i = s.i + 1 := by
  unfold QueryState.endSegment at h
  obtain ⟨buf, -, h⟩ := Option.bind_eq_some_iff.1 h
  extract_lets s₁ t at h
  have hi : t.i = s.i := by
    show (if _ then _ else _ : QueryState n).i = s.i
    split <;> rfl
  split at h
  · exact absurd h (deliver_ne_next _ _)
  · split at h
    · cases h
    · rename_i hdone
      cases h
      exact ⟨by simpa using hdone, congrArg (· + 1) hi⟩

/-- An iteration that goes on has moved forward, and not behind the terminator. -/
theorem index_next {s s' : QueryState n} {key : CStr} (hi : s.i ≤ q.length)
    (h : decodeBody (q ++ NUL :: junk) key s = some (.next s')) : s.i < s'.i ∧ s'.i ≤ q.length := by
  unfold decodeBody at h
  obtain ⟨c, hc, h⟩ := Option.bind_eq_some_iff.1 h
  by_cases hnul : c = NUL
  · -- the terminator ends the loop
    subst hnul
    rw [if_neg (by decide), if_pos rfl] at h
    cases (index_endSegment h).1
  · have hlt := lt_of_ne_nul hi hc hnul
    have hone : s'.i = s.i + 1 → s.i < s'.i ∧ s'.i ≤ q.length := by omega
    rw [if_neg hnul] at h
    split at h
    · split at h
      · exact hone (index_push h)
      · split at h
        · obtain ⟨buf, -, hnext⟩ := Option.bind_eq_some_iff.1 h
          cases hnext
          exact hone rfl
        · cases h
          exact hone rfl
    · split at h
      · exact hone (index_endSegment h).2
      · split at h
        · exact hone (index_push h)
        · split at h
          · obtain ⟨l, hl, h⟩ := Option.bind_eq_some_iff.1 h
            split at h
            · rename_i hhex
              have hlt1 : s.i + 1 < q.length := lt_of_ne_nul hlt hl (ne_nul_of_hex hhex)
              obtain ⟨r, hr, h⟩ := Option.bind_eq_some_iff.1 h
              split at h
              · rename_i hhex'
                have hlt2 : s.i + 2 < q.length := lt_of_ne_nul hlt1 hr (ne_nul_of_hex hhex')
                have := index_push h
                omega
              · exact hone (index_push h)
            · exact hone (index_push h)
          · exact hone (index_push h)

end

/-! ### The loop -/

private theorem index_visited (q junk : List UInt8) (key : CStr) (fuel : Nat) {s : QueryState n} (hs : s.i ≤ q.length) :
    ∀ t ∈ visited (decodeBody (q ++ NUL :: junk) key) fuel s, t.i ≤ q.length :=
  visited_invariant (fun _ _ ht hnext => (index_next ht hnext).2) hs

private theorem loop_ne_running (q junk : List UInt8) (key : CStr) {fuel : Nat} {s : QueryState n}
    (hs : s.i ≤ q.length) (hfuel : q.length < s.i + fuel) :
    loop (decodeBody (q ++ NUL :: junk) key) fuel s ≠ .running := by
  induction fuel generalizing s with
  | zero => omega
  | succ fuel ih =>
    cases hbody : decodeBody (q ++ NUL :: junk) key s with
    | none =>
      rw [loop_fault hbody]
      exact nofun
    | some step =>
      cases step with
      | exit r =>
        rw [loop_exit hbody]
        exact nofun
      | next s' =>
        obtain ⟨hlt, hle⟩ := index_next hs hbody
        rw [loop_next hbody]
        exact ih hle (by omega)

private theorem decodeQuery_eq_loop (q junk : List UInt8) (key : CStr) (buf : Mem n) :
    decodeQuery (q ++ NUL :: junk) key buf =
      loop (decodeBody (q ++ NUL :: junk) key) (q.length + 1) ⟨0, 0, 0, false, none, buf⟩ := by
  have hend : loop (decodeBody (q ++ NUL :: junk) key) (q.length + 1) ⟨0, 0, 0, false, none, buf⟩ ≠ .running :=
    loop_ne_running q junk key (Nat.zero_le _) (by show q.length < 0 + _; omega)
  have hlen : (q ++ NUL :: junk).length = q.length + 1 + junk.length := by
    rw [List.length_append, List.length_cons]
    omega
  rw [decodeQuery, hlen, loop_add hend]

/-- On a query `q` with its terminator, whatever stands behind it: every index that an iteration reads is at most that
of the terminator, the loop ends after at most `q.length + 1` iterations, and the outcome does not depend on what stands
behind the terminator. -/
theorem decodeQuery_reads (q junk : List UInt8) (key : CStr) (buf : Mem n) :
    (∀ fuel, ∀ s ∈ visited (decodeBody (q ++ NUL :: junk) key) fuel ⟨0, 0, 0, false, none, buf⟩,
      ∀ x ∈ decodeReads (q ++ NUL :: junk) s.i, x ≤ q.length) ∧
    loop (decodeBody (q ++ NUL :: junk) key) (q.length + 1) ⟨0, 0, 0, false, none, buf⟩ ≠ .running ∧
    ∀ junk', decodeQuery (q ++ NUL :: junk') key buf = decodeQuery (q ++ NUL :: junk) key buf := by
  have hstart : (⟨0, 0, 0, false, none, buf⟩ : QueryState n).i ≤ q.length := Nat.zero_le _
  refine ⟨?_, ?_, ?_⟩
  · intro fuel s hs x hx
    exact decodeReads_le (index_visited q junk key fuel hstart s hs) x hx
  · exact loop_ne_running q junk key hstart (by show q.length < 0 + _; omega)
  · intro junk'
    rw [decodeQuery_eq_loop, decodeQuery_eq_loop]
    apply loop_congr
    intro s hs
    apply decodeBody_congr
    intro x hx
    have hle := decodeReads_le (index_visited q junk' key _ hstart s hs) x hx
    -- up to the terminator the two arrays are the same
    have hsplit (rest : List UInt8) : q ++ NUL :: rest = (q ++ [NUL]) ++ rest := by simp
    have hx' : x < (q ++ [NUL]).length := by
      rw [List.length_append, List.length_singleton]
      omega
    rw [hsplit junk', hsplit junk, List.getElem?_append_left hx', List.getElem?_append_left hx']

end Tinyweb

import Tinyweb.Lib.FormEncoding
import Tinyweb.GetField

/-!
# `decode_query` inside a segment

Each iteration of the loop that takes a data character stores one byte (`decodeBody_plain`, `decodeBody_escape`), so
that a run over some text adds the decoding of the text to the buffer, or leaves it (`reaches_text`).
-/

namespace Tinyweb

open Clib

variable {n : Nat}

/-! ### One character -/

theorem hex_eq (c : UInt8) : hex c = match hexVal c with
    | some v => (v : Int)
    | none => -1 := by
  unfold hex hexVal
  split
  · rename_i h
    have h1 : 48 ≤ c.toNat := h.1
    simp only
    omega
  · split
    · rename_i h
      have h1 : 65 ≤ c.toNat := h.1
      simp only
      omega
    · split
      · rename_i h
        have h1 : 97 ≤ c.toNat := h.1
        simp only
        omega
      · rfl

private theorem hex_of_some {c : UInt8} {v : Nat} (h : hexVal c = some v) : hex c = v := by
  rw [hex_eq, h]

private theorem hex_neg_of_none {c : UInt8} (h : hexVal c = none) : ¬ hex c ≥ 0 := by
  rw [hex_eq, h]
  decide

/-- The loop inside a segment: `acc` has been stored in the buffer, which held `m` before the segment. -/
def QueryState.at (m : Mem n) (i j : Nat) (name : Bool) (value : Option Nat) (acc : List UInt8) : QueryState n :=
  ⟨i, acc.length, j, name, value, m.overlay acc⟩

private theorem loop_push {query : List UInt8} {key : CStr} {m : Mem n} {i i' j : Nat} {name : Bool}
    {value : Option Nat} {acc : List UInt8} {b : UInt8} (fuel : Nat)
    (h : decodeBody query key (.at m i j name value acc) = (QueryState.at m i j name value acc).push b i') :
    loop (decodeBody query key) (fuel + 1) (.at m i j name value acc) =
      if acc.length < n then loop (decodeBody query key) fuel (.at m i' j name value (acc ++ [b])) else .fault := by
  have hst : ((m.overlay acc).store acc.length b) = _ := Mem.store_overlay m acc b
  by_cases hlen : acc.length < n
  · rw [if_pos hlen]
    apply loop_next
    rw [if_pos hlen] at hst
    rw [h]
    simp [QueryState.push, QueryState.at, hst]
  · rw [if_neg hlen]
    apply loop_fault
    rw [if_neg hlen] at hst
    rw [h]
    simp [QueryState.push, QueryState.at, hst]

/-- A character that is data: not the end of the segment, and `=` only after the name. -/
def Data (name : Bool) (c : UInt8) : Prop := c ≠ NUL ∧ c ≠ AMP ∧ (name = false → c ≠ EQUALS)

private theorem decodeBody_plain {query : List UInt8} {key : CStr} {s : QueryState n} {c : UInt8}
    (hc : query[s.i]? = some c) (hdata : Data s.name c)
    (hesc : c = PERCENT → ∃ l, query[s.i + 1]? = some l ∧
      (hexVal l = none ∨ ∃ r, query[s.i + 2]? = some r ∧ hexVal r = none)) :
    decodeBody query key s = s.push (plain c) (s.i + 1) := by
  obtain ⟨h0, hamp, heq⟩ := hdata
  unfold decodeBody plain
  simp only [hc, Option.bind_eq_bind, Option.bind_some]
  by_cases h1 : c = EQUALS
  · have hname : s.name = true := by
      cases hn : s.name with
      | false => exact absurd h1 (heq hn)
      | true => rfl
    have hp : c ≠ PLUS := by rw [h1]; decide
    simp only [h1, ↓reduceIte, hname]
    rfl
  · by_cases hp : c = PLUS
    · simp only [hp, ↓reduceIte]
      rfl
    · by_cases hpc : c = PERCENT
      · obtain ⟨l, hl, hlr⟩ := hesc hpc
        simp only [hpc, ↓reduceIte, hl, Option.bind_some]
        rcases hlr with hlr | ⟨r, hr, hlr⟩
        · rw [if_neg (hex_neg_of_none hlr)]
          rfl
        · simp only [hr, Option.bind_some, hex_neg_of_none hlr, ↓reduceIte, ite_self]
          rfl
      · simp only [h1, h0, hamp, hp, hpc, ↓reduceIte]

private theorem decodeBody_escape {query : List UInt8} {key : CStr} {s : QueryState n} {c l r b : UInt8}
    (hc : query[s.i]? = some c) (hl : query[s.i + 1]? = some l) (hr : query[s.i + 2]? = some r)
    (hb : escape c l r = some b) : decodeBody query key s = s.push b (s.i + 3) := by
  unfold escape at hb
  split at hb
  · rename_i hpc
    subst hpc
    split at hb
    · rename_i u v hu hv
      have hbyte : (((hex l).toNat <<< 4) + (hex r).toNat).toUInt8 = b := by
        rw [hex_of_some hu, hex_of_some hv, Int.toNat_natCast, Int.toNat_natCast, Nat.shiftLeft_eq, Nat.mul_comm]
        exact Option.some.inj hb
      have h1 : hex l ≥ 0 := by rw [hex_of_some hu]; omega
      have h2 : hex r ≥ 0 := by rw [hex_of_some hv]; omega
      simp only [decodeBody, hc, hl, hr, Option.bind_eq_bind, Option.bind_some, h1, h2, ↓reduceIte, hbyte]
      rfl
    · cases hb
  · cases hb

/-! ### A run of data characters -/

/-- What a run of the loop over some characters comes to: the bytes `u` are added to the buffer, if there is room. -/
def Reaches (query : List UInt8) (key : CStr) (m : Mem n) (j : Nat) (name : Bool) (value : Option Nat)
    (fuel i : Nat) (acc : List UInt8) (i' : Nat) (u : List UInt8) : Prop :=
  ∃ fuel', fuel + i ≤ fuel' + i' ∧
    loop (decodeBody query key) fuel (.at m i j name value acc) =
      if (acc ++ u).length ≤ n then loop (decodeBody query key) fuel' (.at m i' j name value (acc ++ u)) else .fault

private theorem Reaches.push {query : List UInt8} {key : CStr} {m : Mem n} {j : Nat} {name : Bool} {value : Option Nat}
    {fuel i i' i'' : Nat} {acc u : List UInt8} {b : UInt8} (hi : i < i')
    (h : decodeBody query key (.at m i j name value acc) = (QueryState.at m i j name value acc).push b i')
    (ih : acc.length < n → Reaches query key m j name value fuel i' (acc ++ [b]) i'' u) :
    Reaches query key m j name value (fuel + 1) i acc i'' (b :: u) := by
  have hstep := loop_push fuel h
  by_cases hlen : acc.length < n
  · obtain ⟨fuel', hf, hloop⟩ := ih hlen
    refine ⟨fuel', by omega, ?_⟩
    rw [hstep, if_pos hlen, hloop, List.append_assoc, List.singleton_append]
  · have hover : ¬ (acc ++ b :: u).length ≤ n := by
      rw [List.length_append, List.length_cons]
      omega
    refine ⟨fuel + i + 1, by omega, ?_⟩
    rw [hstep, if_neg hlen, if_neg hover]

/-- An iteration that takes the characters `u` as the byte `b`, and then a run over `w`. -/
private theorem Reaches.consume {query : List UInt8} {key : CStr} {m : Mem n} {j : Nat} {name : Bool}
    {value : Option Nat} {fuel : Nat} {pre acc u w : List UInt8} {b : UInt8} (hne : u ≠ [])
    (hstep : decodeBody query key (.at m pre.length j name value acc) =
      (QueryState.at m pre.length j name value acc).push b (pre.length + u.length))
    (hdec : unescape (u ++ w) = b :: unescape w) (hfuel : (u ++ w).length ≤ fuel)
    (ih : ∀ f, w.length ≤ f → (acc ++ [b]).length ≤ n → Reaches query key m j name value f (pre ++ u).length
      (acc ++ [b]) ((pre ++ u).length + w.length) (unescape w)) :
    Reaches query key m j name value fuel pre.length acc (pre.length + (u ++ w).length) (unescape (u ++ w)) := by
  have hpos : 0 < u.length := List.length_pos_iff.2 hne
  rw [List.length_append] at hfuel
  obtain ⟨fuel, rfl⟩ : ∃ f, fuel = f + 1 := ⟨fuel - 1, by omega⟩
  rw [hdec]
  refine Reaches.push (by omega) hstep fun hlen => ?_
  have hlen' : (acc ++ [b]).length ≤ n := by
    rw [List.length_append, List.length_singleton]
    omega
  have hend : (pre ++ u).length + w.length = pre.length + (u ++ w).length := by
    simp only [List.length_append, Nat.add_assoc]
  have h := ih fuel (by omega) hlen'
  rwa [hend, List.length_append] at h

private theorem escape_eq_none {l r : UInt8} (h : escape PERCENT l r = none) : hexVal l = none ∨ hexVal r = none := by
  unfold escape at h
  cases hl : hexVal l with
  | none => exact Or.inl rfl
  | some a =>
    cases hr : hexVal r with
    | none => exact Or.inr rfl
    | some b => simp [hl, hr] at h

/-- The characters of `w`, followed by one that is not a hexadecimal digit, add their decoding to the buffer. -/
theorem reaches_text {query : List UInt8} {key : CStr} {m : Mem n} {j : Nat} {name : Bool} {value : Option Nat}
    {e : UInt8} {post : List UInt8} (he : hexVal e = none) (w : List UInt8) :
    ∀ {pre acc : List UInt8} {fuel : Nat}, query = pre ++ (w ++ e :: post) → (∀ c ∈ w, Data name c) →
      w.length ≤ fuel → acc.length ≤ n →
      Reaches query key m j name value fuel pre.length acc (pre.length + w.length) (unescape w) := by
  induction w using unescape.induct with
  | case1 c l r w b hb ih =>
    intro pre acc fuel hq hdata hfuel _
    have hstep : decodeBody query key (.at m pre.length j name value acc) =
        (QueryState.at m pre.length j name value acc).push b (pre.length + 3) := by
      apply decodeBody_escape (c := c) (l := l) (r := r) _ _ _ hb <;> simp [QueryState.at, hq]
    have hdec : unescape (c :: l :: r :: w) = b :: unescape w := by rw [unescape, hb]
    exact Reaches.consume (u := [c, l, r]) (List.cons_ne_nil _ _) hstep hdec hfuel fun f hf hlen =>
      ih (by simp [hq]) (fun x hx => hdata x (by simp [hx])) hf hlen
  | case2 c l r w hb ih =>
    intro pre acc fuel hq hdata hfuel _
    have hstep : decodeBody query key (.at m pre.length j name value acc) =
        (QueryState.at m pre.length j name value acc).push (plain c) (pre.length + 1) := by
      apply decodeBody_plain (c := c) (by simp [QueryState.at, hq]) (hdata c (by simp))
      intro hpc
      subst hpc
      refine ⟨l, by simp [QueryState.at, hq], ?_⟩
      rcases escape_eq_none hb with h | h
      · exact Or.inl h
      · exact Or.inr ⟨r, by simp [QueryState.at, hq], h⟩
    have hdec : unescape (c :: l :: r :: w) = plain c :: unescape (l :: r :: w) := by rw [unescape, hb]
    exact Reaches.consume (u := [c]) (List.cons_ne_nil _ _) hstep hdec hfuel fun f hf hlen =>
      ih (by simp [hq]) (fun x hx => hdata x (by simp [hx])) hf hlen
  | case3 c w hw ih =>
    intro pre acc fuel hq hdata hfuel _
    have hstep : decodeBody query key (.at m pre.length j name value acc) =
        (QueryState.at m pre.length j name value acc).push (plain c) (pre.length + 1) := by
      apply decodeBody_plain (c := c) (by simp [QueryState.at, hq]) (hdata c (by simp))
      -- at most one character is left, so `e` is among the two that follow
      intro _
      rcases w with _ | ⟨l, _ | ⟨r, w⟩⟩
      · exact ⟨e, by simp [QueryState.at, hq], Or.inl he⟩
      · exact ⟨l, by simp [QueryState.at, hq], Or.inr ⟨e, by simp [QueryState.at, hq], he⟩⟩
      · exact absurd rfl (hw l r w)
    have hdec : unescape (c :: w) = plain c :: unescape w := unescape_of_short c (length_lt_two hw)
    exact Reaches.consume (u := [c]) (List.cons_ne_nil _ _) hstep hdec hfuel fun f hf hlen =>
      ih (by simp [hq]) (fun x hx => hdata x (by simp [hx])) hf hlen
  | case4 =>
    intro pre acc fuel hq hdata hfuel hacc
    refine ⟨fuel, by simp, ?_⟩
    simp [unescape, hacc]

end Tinyweb

import Mathlib.Data.List.Basic
import Mathlib.Tactic.Common

/-!
# Bytes that arrive in pieces

What a peer sends is a sequence of bytes, but a `recv` returns only what has arrived so far, and fails if nothing comes
before its timeout.  `Arrivals` gives the pieces, the timeouts between them and how the connection ends.  `recv` reads
from the first piece, `recvAll` repeats it until as many bytes are there as were asked for.  Both read the bytes that
come before the first timeout in order (`recv_spec`, `recvAll_spec`); `EndsAt p` says that one of the pieces ends after
the first `p` bytes, and reading moves these places along with the bytes.
-/

namespace Clib

/-- A number of bytes that is passed as an `int`; a negative one asks for nothing. -/
def intLength (n : Nat) : Nat := if n % 4294967296 < 2147483648 then n % 4294967296 else 0

theorem intLength_of_lt {n : Nat} (h : n < 2147483648) : intLength n = n := by
  rw [intLength, Nat.mod_eq_of_lt (by omega), if_pos h]

structure Arrivals where
  /-- The pieces; an empty one is a call of `recv` that times out. -/
  chunks : List (List UInt8)
  /-- The connection ends with an error; otherwise it is closed in order. -/
  failed : Bool
  deriving DecidableEq

namespace Arrivals

variable {s r : Arrivals} {n p : Nat} {d : List UInt8}

/-- What comes before the first timeout. -/
def bytes (s : Arrivals) : List UInt8 := (s.chunks.takeWhile (· ≠ [])).flatten

/-- No call times out. -/
def Prompt (s : Arrivals) : Prop := ∀ c ∈ s.chunks, c ≠ []

/-- `recv` with room for `n` bytes: what it stores, or `none` for an error; no bytes at the end of the connection. -/
def recv (s : Arrivals) (n : Nat) : Option (List UInt8) × Arrivals :=
  match s with
  | ⟨[], failed⟩ => (if failed then none else some [], ⟨[], failed⟩)
  | ⟨[] :: cs, failed⟩ => (none, ⟨cs, failed⟩)
  | ⟨(b :: bs) :: cs, failed⟩ =>
    (some ((b :: bs).take n), ⟨if (b :: bs).length ≤ n then cs else (b :: bs).drop n :: cs, failed⟩)

/-- A piece of the bytes ends after the first `p` of them. -/
def EndsAt (s : Arrivals) (p : Nat) : Prop := ∃ cs₁ cs₂, s.chunks = cs₁ ++ cs₂ ∧ cs₁.flatten.length = p

theorem bytes_cons {c : List UInt8} (hc : c ≠ []) (cs : List (List UInt8)) (failed : Bool) :
    (⟨c :: cs, failed⟩ : Arrivals).bytes = c ++ (⟨cs, failed⟩ : Arrivals).bytes := by
  simp [bytes, hc]

/-- The connection has ended, or the call times out. -/
theorem recv_of_bytes_nil (h : s.bytes = []) (n : Nat) :
    (∃ r, s.recv n = (none, r)) ∨ s.recv n = (some [], s) := by
  obtain ⟨chunks, failed⟩ := s
  match chunks with
  | [] => cases failed with
    | true => exact Or.inl ⟨_, rfl⟩
    | false => exact Or.inr rfl
  | [] :: cs => exact Or.inl ⟨_, rfl⟩
  | (b :: bs) :: cs =>
    rw [bytes_cons (List.cons_ne_nil b bs)] at h
    cases h

/-- A `recv` with room returns the next bytes, at least one of them. -/
theorem recv_spec (h : s.bytes ≠ []) (hn : 0 < n) :
    ∃ d r, s.recv n = (some d, r) ∧ d ≠ [] ∧ d.length ≤ n ∧ s.bytes = d ++ r.bytes := by
  obtain ⟨chunks, failed⟩ := s
  match chunks with
  | [] => exact absurd rfl h
  | [] :: cs => exact absurd rfl h
  | (b :: bs) :: cs =>
    refine ⟨(b :: bs).take n, _, rfl, ?_, List.length_take_le n _, ?_⟩
    · intro hnil
      rcases List.take_eq_nil_iff.1 hnil with rfl | hnil
      · omega
      · cases hnil
    · rw [bytes_cons (List.cons_ne_nil b bs)]
      split
      next hle => rw [List.take_of_length_le hle]
      next hlt =>
        have hrest : (b :: bs).drop n ≠ [] := fun hnil => hlt (List.drop_eq_nil_iff.1 hnil)
        rw [bytes_cons hrest, ← List.append_assoc, List.take_append_drop]

private theorem endsAt_cons {c : List UInt8} {cs : List (List UInt8)} {failed : Bool} (hp : 0 < p) :
    EndsAt ⟨c :: cs, failed⟩ p ↔ ∃ cs₁ cs₂, cs = cs₁ ++ cs₂ ∧ c.length + cs₁.flatten.length = p := by
  constructor
  · rintro ⟨cs₁, cs₂, heq, hlen⟩
    cases cs₁ with
    | nil =>
      rw [List.flatten_nil, List.length_nil] at hlen
      omega
    | cons c' cs₁ =>
      obtain ⟨rfl, rfl⟩ := List.cons.inj heq
      rw [List.flatten_cons, List.length_append] at hlen
      exact ⟨cs₁, cs₂, rfl, hlen⟩
  · rintro ⟨cs₁, cs₂, rfl, hlen⟩
    refine ⟨c :: cs₁, cs₂, rfl, ?_⟩
    rw [List.flatten_cons, List.length_append]
    exact hlen

/-- What a `recv` that does not fail can be. -/
private theorem recv_cases (h : s.recv n = (some d, r)) :
    d = [] ∧ r = s ∧ s.chunks = [] ∨
      ∃ b bs cs, s.chunks = (b :: bs) :: cs ∧ d = (b :: bs).take n ∧
        r = ⟨if (b :: bs).length ≤ n then cs else (b :: bs).drop n :: cs, s.failed⟩ := by
  obtain ⟨chunks, failed⟩ := s
  match chunks with
  | [] =>
    rw [recv, Prod.mk.injEq] at h
    obtain ⟨hd, rfl⟩ := h
    split at hd
    next => cases hd
    next =>
      cases hd
      exact Or.inl ⟨rfl, rfl, rfl⟩
  | [] :: cs => cases h
  | (b :: bs) :: cs =>
    rw [recv, Prod.mk.injEq, Option.some.injEq] at h
    exact Or.inr ⟨b, bs, cs, rfl, h.1.symm, h.2.symm⟩

theorem endsAt_recv (h : s.recv n = (some d, r)) (hp : 0 < p) : r.EndsAt p ↔ s.EndsAt (p + d.length) := by
  rcases recv_cases h with ⟨rfl, rfl, -⟩ | ⟨b, bs, cs, hchunks, rfl, rfl⟩
  · rfl
  · have hs : s = ⟨(b :: bs) :: cs, s.failed⟩ := by rw [← hchunks]
    rw [hs, endsAt_cons (by omega)]
    split
    next hle =>
      rw [List.take_of_length_le hle]
      refine exists_congr fun cs₁ => exists_congr fun cs₂ => and_congr_right fun _ => ?_
      omega
    next hlt =>
      rw [endsAt_cons hp]
      refine exists_congr fun cs₁ => exists_congr fun cs₂ => and_congr_right fun _ => ?_
      rw [List.length_drop, List.length_take]
      omega

/-- With room for every piece, a `recv` returns a whole one. -/
theorem endsAt_length_recv (h : s.recv n = (some d, r)) (hroom : ∀ c ∈ s.chunks, c.length ≤ n) : s.EndsAt d.length := by
  rcases recv_cases h with ⟨rfl, -, -⟩ | ⟨b, bs, cs, hchunks, rfl, -⟩
  · exact ⟨[], s.chunks, rfl, rfl⟩
  · rw [hchunks] at hroom
    rw [List.take_of_length_le (hroom _ List.mem_cons_self)]
    exact ⟨[b :: bs], cs, hchunks, by rw [List.flatten_singleton]⟩

/-- A `recv` never passes the end of a piece. -/
theorem not_endsAt_lt_recv (h : s.recv n = (some d, r)) (hp : 0 < p) (hlt : p < d.length) : ¬ s.EndsAt p := by
  rcases recv_cases h with ⟨rfl, -, -⟩ | ⟨b, bs, cs, hchunks, rfl, -⟩
  · cases hlt
  · have hs : s = ⟨(b :: bs) :: cs, s.failed⟩ := by rw [← hchunks]
    rw [hs, endsAt_cons hp]
    rintro ⟨cs₁, -, -, hlen⟩
    rw [List.length_take] at hlt
    omega

/-- What holds of all pieces and of all ends of pieces holds of those that are left. -/
private theorem forall_chunks_recv {P : List UInt8 → Prop} (hP : ∀ c k, k < c.length → P c → P (c.drop k)) (n : Nat)
    (hs : ∀ c ∈ s.chunks, P c) : ∀ c ∈ (s.recv n).2.chunks, P c := by
  obtain ⟨chunks, failed⟩ := s
  match chunks with
  | [] => exact hs
  | [] :: cs => exact (List.forall_mem_cons.1 hs).2
  | (b :: bs) :: cs =>
    rw [List.forall_mem_cons] at hs
    rw [recv]
    dsimp only
    split
    next => exact hs.2
    next hlt => exact List.forall_mem_cons.2 ⟨hP _ n (Nat.not_le.1 hlt) hs.1, hs.2⟩

theorem chunks_recv {m : Nat} (hroom : ∀ c ∈ s.chunks, c.length ≤ m) (n : Nat) :
    ∀ c ∈ (s.recv n).2.chunks, c.length ≤ m := by
  refine forall_chunks_recv ?_ n hroom
  intro c k _ hc
  rw [List.length_drop]
  omega

theorem Prompt.recv (h : s.Prompt) (n : Nat) : (s.recv n).2.Prompt := by
  refine forall_chunks_recv ?_ n h
  intro c k hk _ hnil
  rw [List.drop_eq_nil_iff] at hnil
  omega

/-- Without timeouts, nothing comes once there is nothing to be read. -/
theorem Prompt.bytes_recv (h : s.Prompt) (hnil : s.bytes = []) (n : Nat) : (s.recv n).2.bytes = [] := by
  obtain ⟨chunks, failed⟩ := s
  cases chunks with
  | nil => rfl
  | cons c cs =>
    have hc := h c List.mem_cons_self
    rw [bytes_cons hc] at hnil
    exact absurd (List.append_eq_nil_iff.1 hnil).1 hc

/-- Calls of `recv` until `len` more bytes have been stored behind `got`, the connection has ended, or there was an
error (then the result is `false`); every call stores at least one byte, so `len` calls are enough. -/
def recvFrom : Nat → Arrivals → Nat → List UInt8 → List UInt8 × Bool × Arrivals
  | 0, s, _, got => (got, true, s)
  | fuel + 1, s, len, got =>
    if len > 0 then
      match s.recv len with
      | (none, s) => (got, false, s)
      | (some [], s) => (got, true, s)
      | (some (b :: bs), s) => recvFrom fuel s (len - (b :: bs).length) (got ++ b :: bs)
    else (got, true, s)

def recvAll (s : Arrivals) (len : Nat) : List UInt8 × Bool × Arrivals := recvFrom len s len []

private theorem recvFrom_spec (fuel : Nat) : ∀ (s : Arrivals) (len : Nat) (got : List UInt8), len ≤ fuel →
    ∃ ok r, recvFrom fuel s len got = (got ++ s.bytes.take len, ok, r) ∧ (len ≤ s.bytes.length → ok = true) ∧
      (len ≤ s.bytes.length ∨ s.Prompt → r.bytes = s.bytes.drop len) ∧
      (len ≤ s.bytes.length → ∀ p, 0 < p → (r.EndsAt p ↔ s.EndsAt (p + len))) ∧
      ∀ m, (∀ c ∈ s.chunks, c.length ≤ m) → ∀ c ∈ r.chunks, c.length ≤ m := by
  induction fuel with
  | zero =>
    intro s len got hlen
    obtain rfl : len = 0 := by omega
    refine ⟨true, s, ?_, fun _ => rfl, fun _ => rfl, fun _ p _ => Iff.rfl, fun m hm => hm⟩
    simp [recvFrom]
  | succ fuel ih =>
    intro s len got hlen
    rw [recvFrom]
    by_cases hpos : len > 0
    · rw [if_pos hpos]
      by_cases hnil : s.bytes = []
      · -- the connection has ended, or the call times out
        have hmore : ¬ len ≤ s.bytes.length := by
          rw [hnil, List.length_nil]
          omega
        have hrest (hprompt : s.Prompt) : (s.recv len).2.bytes = s.bytes.drop len := by
          rw [hprompt.bytes_recv hnil, hnil, List.drop_nil]
        rw [hnil, List.take_nil, List.append_nil, ← hnil]
        refine ⟨(s.recv len).1.isSome, (s.recv len).2, ?_, fun h => absurd h hmore,
          fun h => hrest (h.resolve_left hmore), fun h => absurd h hmore, fun m hm => chunks_recv hm len⟩
        rcases recv_of_bytes_nil hnil len with ⟨r, hfail⟩ | hend
        · rw [hfail]
          rfl
        · rw [hend]
          rfl
      · obtain ⟨d, r, hrecv, hd, hdn, hbytes⟩ := recv_spec hnil hpos
        obtain ⟨ok, r', hrest, hok, hdrop, hends, hchunks⟩ := ih r (len - d.length) (got ++ d)
          (by have := List.length_pos_iff.2 hd; omega)
        have hr : (s.recv len).2 = r := by rw [hrecv]
        have hle : len ≤ s.bytes.length ↔ len - d.length ≤ r.bytes.length := by
          rw [hbytes, List.length_append]
          omega
        refine ⟨ok, r', ?_, fun h => hok (hle.1 h), ?_, ?_, fun m hm => hchunks m (hr ▸ chunks_recv hm len)⟩
        · rw [hrecv]
          cases d with
          | nil => exact absurd rfl hd
          | cons b bs =>
            show recvFrom fuel r (len - (b :: bs).length) (got ++ b :: bs) = _
            rw [hrest, hbytes, List.take_append, List.take_of_length_le hdn, List.append_assoc]
        · intro h
          rw [hdrop (h.imp hle.1 fun hprompt => hr ▸ hprompt.recv len), hbytes, List.drop_append,
            List.drop_of_length_le hdn, List.nil_append]
        · intro h p hp
          rw [hends (hle.1 h) p hp, endsAt_recv hrecv (by omega), Nat.add_assoc, Nat.sub_add_cancel hdn]
    · obtain rfl : len = 0 := by omega
      refine ⟨true, s, ?_, fun _ => rfl, fun _ => rfl, fun _ p _ => Iff.rfl, fun m hm => hm⟩
      simp

/-- The next `len` bytes, or all that come before a timeout or the end of the connection. -/
theorem recvAll_spec (s : Arrivals) (len : Nat) :
    ∃ ok r, s.recvAll len = (s.bytes.take len, ok, r) ∧ (len ≤ s.bytes.length → ok = true) ∧
      (len ≤ s.bytes.length ∨ s.Prompt → r.bytes = s.bytes.drop len) ∧
      (len ≤ s.bytes.length → ∀ p, 0 < p → (r.EndsAt p ↔ s.EndsAt (p + len))) ∧
      ∀ m, (∀ c ∈ s.chunks, c.length ≤ m) → ∀ c ∈ r.chunks, c.length ≤ m :=
  recvFrom_spec len s len [] (Nat.le_refl _)

end Arrivals

end Clib

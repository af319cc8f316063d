import Mathlib.Algebra.Order.Ring.Nat
import Mathlib.Tactic.Ring
import Tinyweb.Lib.Arrivals
import Tinyweb.Lib.Frames
import Tinyweb.Lib.Loop
import Tinyweb.ReadWebsocket

/-!
# `read_websocket` and the bytes it reads (`mongoose.c`)

The loop of `read_websocket` looks at the bytes that are buffered behind the request.  If they begin with a frame header
it reads the payload, from the buffer and then from the socket, and calls the callback; otherwise it reads more bytes
into the buffer.  `readStep` is one iteration, with the socket as `Arrivals`.

The test for the header of a short frame asks for `mask_len` bytes where it should ask for `2 + mask_len`.  So the loop
takes the first four or five bytes of a short masked frame for a header and then fails an assertion.  This is all that
can go wrong: for a client that sends whole frames, however the network cuts them into pieces that fit into the buffer,
the loop serves exactly these frames, unless a piece ends after the fourth or fifth byte of such a frame
(`readWebsocket_spec`).  A payload that does not come is made up from what the memory held (`readWebsocket_truncated`).
-/

namespace Tinyweb

open Clib

/-- `malloc`, with the content of the new block. -/
structure Heap where
  malloc : Nat → Option (List UInt8)
  length_malloc : ∀ {n block}, malloc n = some block → block.length = n

/-- The number in these bytes, the most significant first. -/
def networkNat (bytes : List UInt8) : Nat := bytes.foldl (fun n b => n * 256 + b.toNat) 0

/-- `header_len`, `mask_len` and `data_len`, for the bytes at `buf`; `none` if `header_len` stays 0. -/
def websocketHeader : List UInt8 → Option (Nat × Nat × Nat)
  | b0 :: b1 :: rest =>
    let bodyLen := (b0 :: b1 :: rest).length
    let len := (b1 &&& 127).toNat
    let maskLen := if b1 &&& 128 ≠ 0 then 4 else 0
    if len < 126 ∧ bodyLen ≥ maskLen then some (2 + maskLen, maskLen, len)
    else if len = 126 ∧ bodyLen ≥ 4 + maskLen then some (4 + maskLen, maskLen, networkNat (rest.take 2))
    else if bodyLen ≥ 10 + maskLen then
      some (10 + maskLen, maskLen, networkNat (rest.take 4) * 4294967296 + networkNat ((rest.drop 4).take 4))
    else none
  | _ => none

/-- The state of the loop: the bytes buffered behind the request, the array `mem`, the socket, and what was written. -/
structure Reader where
  body : List UInt8
  mem : Mem 4096
  net : Arrivals
  written : List UInt8

/-- The payload as it stands in the frame, what is left in the buffer and the socket after it has been read.  The errors
of `pull_all` are ignored. -/
def readPayload (s : Reader) (headerLen dataLen : Nat) : List UInt8 × List UInt8 × Arrivals :=
  if dataLen + headerLen > s.body.length then
    let len := s.body.length - headerLen
    let pulled := s.net.recvAll (intLength (dataLen - len))
    (s.body.drop headerLen ++ pulled.1, [], pulled.2.2)
  else ((s.body.drop headerLen).take dataLen, s.body.drop (dataLen + headerLen), s.net)

/-- One iteration; `space` is the size of the buffer behind the request. -/
def readStep (ri : RequestInfo) (heap : Heap) (space : Nat) (s : Reader) : Option (Step Reader (List UInt8)) :=
  match websocketHeader s.body with
  | some (headerLen, maskLen, dataLen) =>
    match (if dataLen > 4096 then heap.malloc dataLen else some (s.mem.cells.take dataLen)) with
    | none => some (.exit s.written)
    | some data =>
      let mask := (s.body.drop (headerLen - maskLen)).take maskLen
      -- `assert(body_len >= header_len)`; the sum of the two lengths must not wrap around
      if s.body.length < headerLen ∨ dataLen + headerLen ≥ 18446744073709551616 then none
      else
        let (wire, body, net) := readPayload s headerLen dataLen
        let frame : InFrame :=
          { bits := s.body.headD 0
            mask := if maskLen > 0 then some ((Mem.fill 4 0).overlay mask) else none
            wire := wire ++ data.drop wire.length }
        let (reply, stop) := serveFrame ri s.mem frame
        let written := s.written ++ reply.written
        if stop then some (.exit written) else some (.next ⟨body, bufferAfter s.mem frame, net, written⟩)
  | none =>
    match s.net.recv (space - s.body.length) with
    | (some (b :: bs), net) => some (.next { s with body := s.body ++ b :: bs, net := net })
    | _ => some (.exit s.written)

/-- What has been written when the loop ends. -/
def readWebsocket (ri : RequestInfo) (heap : Heap) (space fuel : Nat) (s : Reader) : Outcome (List UInt8) :=
  loop (readStep ri heap space) fuel s

/-! ### What a client sends -/

/-- The three forms of the payload length. -/
inductive LengthForm where
  | short
  | medium
  | long
  deriving DecidableEq

def LengthForm.Fits : LengthForm → Nat → Prop
  | .short, n => n < 126
  | .medium, n => n < 256 ^ 2
  | .long, n => n < 256 ^ 8

/-- A frame as a client sends it; the shortest form of the length is not required. -/
structure Sent where
  frame : InFrame
  form : LengthForm
  fits : form.Fits frame.wire.length

namespace Sent

variable (f : Sent)

def maskBytes : List UInt8 := f.frame.mask.elim [] Mem.cells

/-- The last seven bits of the second byte. -/
def code : Nat :=
  match f.form with
  | .short => f.frame.wire.length
  | .medium => 126
  | .long => 127

def second : UInt8 := (if f.frame.mask.isSome then 128 + f.code else f.code).toUInt8

def lengthBytes : List UInt8 :=
  match f.form with
  | .short => []
  | .medium => Rfc6455.bigEndian 2 f.frame.wire.length
  | .long => Rfc6455.bigEndian 8 f.frame.wire.length

def header : List UInt8 := f.frame.bits :: f.second :: (f.lengthBytes ++ f.maskBytes)

def bytes : List UInt8 := f.header ++ f.frame.wire

/-- The frames whose first bytes the loop takes for a header too early. -/
def MaskedShort : Prop := f.form = .short ∧ f.frame.mask.isSome = true

end Sent

/-- There is memory for the payload, and its length is an `int`. -/
def Sent.Servable (heap : Heap) (f : Sent) : Prop :=
  f.frame.wire.length < 2147483648 ∧ (f.frame.wire.length > 4096 → heap.malloc f.frame.wire.length ≠ none)

def sentBytes (fs : List Sent) : List UInt8 := fs.flatMap Sent.bytes

/-! ### Reading a header -/

private theorem second_byte : ∀ n < 128, (n.toUInt8 &&& 127).toNat = n ∧ n.toUInt8 &&& 128 = 0 ∧
    ((128 + n).toUInt8 &&& 127).toNat = n ∧ (128 + n).toUInt8 &&& 128 ≠ 0 := by decide

private theorem code_lt (f : Sent) : f.code < 128 := by
  have := f.fits
  unfold Sent.code
  cases hform : f.form <;> simp only [hform, LengthForm.Fits] at this ⊢ <;> omega

private theorem length_maskBytes (f : Sent) : f.maskBytes.length = if f.frame.mask.isSome then 4 else 0 := by
  unfold Sent.maskBytes
  cases f.frame.mask with
  | none => rfl
  | some mask => exact mask.length_cells

private theorem second_and_127 (f : Sent) : (f.second &&& 127).toNat = f.code := by
  have h := second_byte f.code (code_lt f)
  unfold Sent.second
  split
  · exact h.2.2.1
  · exact h.1

private theorem second_and_128 (f : Sent) : (if f.second &&& 128 ≠ 0 then 4 else 0) = f.maskBytes.length := by
  have h := second_byte f.code (code_lt f)
  rw [length_maskBytes]
  unfold Sent.second
  split
  next => rw [if_pos h.2.2.2]
  next => rw [if_neg (not_not.2 h.2.1)]

/-- What the loop makes of bytes that begin like the header of `f`. -/
private theorem websocketHeader_eq (f : Sent) (rest : List UInt8) :
    websocketHeader (f.frame.bits :: f.second :: rest) =
      let bodyLen := rest.length + 2
      let maskLen := f.maskBytes.length
      if f.code < 126 ∧ bodyLen ≥ maskLen then some (2 + maskLen, maskLen, f.code)
      else if f.code = 126 ∧ bodyLen ≥ 4 + maskLen then some (4 + maskLen, maskLen, networkNat (rest.take 2))
      else if bodyLen ≥ 10 + maskLen then
        some (10 + maskLen, maskLen, networkNat (rest.take 4) * 4294967296 + networkNat ((rest.drop 4).take 4))
      else none := by
  simp only [websocketHeader, second_and_127, second_and_128, List.length_cons]

private theorem foldl_networkNat (l : List UInt8) (n : Nat) :
    l.foldl (fun n b => n * 256 + b.toNat) n = n * 256 ^ l.length + networkNat l := by
  induction l generalizing n with
  | nil => simp [networkNat]
  | cons b l ih =>
    rw [networkNat, List.foldl_cons, List.foldl_cons, ih, ih, List.length_cons, pow_succ]
    ring

private theorem networkNat_append (l₁ l₂ : List UInt8) :
    networkNat (l₁ ++ l₂) = networkNat l₁ * 256 ^ l₂.length + networkNat l₂ := by
  rw [networkNat, List.foldl_append, foldl_networkNat]
  rfl

private theorem networkNat_bigEndian {k n : Nat} (h : n < 256 ^ k) : networkNat (Rfc6455.bigEndian k n) = n :=
  Rfc6455.foldl_bigEndian h

theorem websocketHeader_header (f : Sent) (t : List UInt8) :
    websocketHeader (f.header ++ t) = some (f.header.length, f.maskBytes.length, f.frame.wire.length) := by
  have hfits := f.fits
  rw [Sent.header, List.cons_append, List.cons_append, websocketHeader_eq]
  unfold Sent.lengthBytes
  cases hform : f.form with
  | short =>
    have hcode : f.code = f.frame.wire.length := by simp only [Sent.code, hform]
    simp only [hform, LengthForm.Fits] at hfits
    rw [hcode]
    simp only [List.nil_append, List.length_append, List.length_cons]
    rw [if_pos ⟨hfits, by omega⟩, Nat.add_comm]
  | medium =>
    have hcode : f.code = 126 := by simp only [Sent.code, hform]
    simp only [hform, LengthForm.Fits] at hfits
    rw [hcode]
    have hlen := Rfc6455.length_bigEndian 2 f.frame.wire.length
    simp only [List.length_append, List.length_cons, hlen]
    rw [if_neg (by omega), if_pos ⟨trivial, by omega⟩, List.append_assoc, List.take_left' hlen,
      networkNat_bigEndian hfits]
    congr 2
    omega
  | long =>
    have hcode : f.code = 127 := by simp only [Sent.code, hform]
    simp only [hform, LengthForm.Fits] at hfits
    rw [hcode]
    have hlen := Rfc6455.length_bigEndian 8 f.frame.wire.length
    have hsplit := networkNat_append ((Rfc6455.bigEndian 8 f.frame.wire.length).take 4)
      ((Rfc6455.bigEndian 8 f.frame.wire.length).drop 4)
    rw [List.take_append_drop, networkNat_bigEndian hfits, List.length_drop, hlen,
      show 256 ^ (8 - 4) = 4294967296 from rfl] at hsplit
    simp only [List.length_append, List.length_cons, hlen]
    rw [if_neg (by omega), if_neg (by omega), if_pos (by omega), List.append_assoc,
      List.take_append_of_le_length (by omega), List.drop_append_of_le_length (by omega),
      List.take_left' (by rw [List.length_drop, hlen]), ← hsplit]
    congr 2
    omega

/-- A part of a header is recognized only as the first four or five bytes of a short masked frame. -/
theorem websocketHeader_part (f : Sent) {p : List UInt8} (hp : p <+: f.header) (hlen : p.length < f.header.length) :
    (websocketHeader p = none ∧ ¬ (f.MaskedShort ∧ (p.length = 4 ∨ p.length = 5))) ∨
      (websocketHeader p = some (6, 4, f.frame.wire.length) ∧ f.MaskedShort ∧ (p.length = 4 ∨ p.length = 5)) := by
  have hfits := f.fits
  have hmask := length_maskBytes f
  match p, hp with
  | [], _ => exact Or.inl ⟨rfl, by simp⟩
  | [b], _ => exact Or.inl ⟨rfl, by simp⟩
  | b0 :: b1 :: rest, hp =>
    have h0 : b0 = f.frame.bits := (List.cons_prefix_cons.1 hp).1
    have h1 : b1 = f.second := (List.cons_prefix_cons.1 (List.cons_prefix_cons.1 hp).2).1
    rw [h0, h1, websocketHeader_eq]
    rw [h0, h1] at hlen
    unfold Sent.header Sent.lengthBytes at hlen
    unfold Sent.MaskedShort
    simp only [List.length_cons]
    cases hform : f.form with
    | short =>
      have hcode : f.code = f.frame.wire.length := by simp only [Sent.code, hform]
      simp only [hform, LengthForm.Fits, List.nil_append, List.length_cons] at hfits hlen
      cases hsome : f.frame.mask.isSome with
      | false =>
        rw [hsome] at hmask
        simp only [Bool.false_eq_true, ↓reduceIte] at hmask
        omega
      | true =>
        rw [hsome] at hmask
        simp only [↓reduceIte] at hmask
        rw [hmask, hcode]
        by_cases hfour : 4 ≤ rest.length + 2
        · rw [if_pos ⟨hfits, hfour⟩]
          exact Or.inr ⟨rfl, ⟨rfl, rfl⟩, by omega⟩
        · rw [if_neg (by omega), if_neg (by omega), if_neg (by omega)]
          exact Or.inl ⟨rfl, by omega⟩
    | medium =>
      have hcode : f.code = 126 := by simp only [Sent.code, hform]
      have hbig := Rfc6455.length_bigEndian 2 f.frame.wire.length
      simp only [hform, List.length_cons, List.length_append, hbig] at hlen
      rw [if_neg (by omega), if_neg (by omega), if_neg (by omega)]
      exact Or.inl ⟨rfl, fun h => by cases h.1.1⟩
    | long =>
      have hcode : f.code = 127 := by simp only [Sent.code, hform]
      have hbig := Rfc6455.length_bigEndian 8 f.frame.wire.length
      simp only [hform, List.length_cons, List.length_append, hbig] at hlen
      rw [if_neg (by omega), if_neg (by omega), if_neg (by omega)]
      exact Or.inl ⟨rfl, fun h => by cases h.1.1⟩

private theorem length_header_le (f : Sent) : f.header.length ≤ 14 := by
  have hmask := length_maskBytes f
  have hmaskLe : f.maskBytes.length ≤ 4 := by
    rw [hmask]
    split <;> omega
  unfold Sent.header Sent.lengthBytes
  cases f.form <;> simp only [List.length_cons, List.length_append, List.length_nil, Rfc6455.length_bigEndian] <;> omega

/-! ### One iteration -/

/-- Reading may pause with `p` bytes of `body` and what follows it on the socket. -/
def CutAt (body : List UInt8) (net : Arrivals) (p : Nat) : Prop := ∃ q, net.EndsAt q ∧ body.length + q = p

variable {ri : RequestInfo} {heap : Heap} {space : Nat} {s : Reader} {f : Sent} {rest : List UInt8}

/-- The payload is read to its last byte and no further. -/
private theorem readPayload_eq {t : List UInt8} (hint : f.frame.wire.length < 2147483648)
    (hbody : s.body = f.header ++ t)
    (hbytes : t ++ s.net.bytes = f.frame.wire ++ rest) :
    ∃ body net, readPayload s f.header.length f.frame.wire.length = (f.frame.wire, body, net) ∧
      body ++ net.bytes = rest ∧ body.length ≤ s.body.length ∧ net.bytes.length ≤ s.net.bytes.length ∧
      (∀ m, (∀ c ∈ s.net.chunks, c.length ≤ m) → ∀ c ∈ net.chunks, c.length ≤ m) ∧
      ∀ p, 0 < p → (CutAt body net p ↔ CutAt s.body s.net (p + f.bytes.length)) := by
  have hsum : t.length + s.net.bytes.length = f.frame.wire.length + rest.length := by
    rw [← List.length_append, hbytes, List.length_append]
  have hbodyLen : s.body.length = f.header.length + t.length := by rw [hbody, List.length_append]
  have hframeLen : f.bytes.length = f.header.length + f.frame.wire.length := by rw [Sent.bytes, List.length_append]
  have hdrop : s.body.drop f.header.length = t := by rw [hbody, List.drop_left]
  have htake : (t ++ s.net.bytes).take f.frame.wire.length = f.frame.wire := by rw [hbytes, List.take_left]
  have hrest : (t ++ s.net.bytes).drop f.frame.wire.length = rest := by rw [hbytes, List.drop_left]
  unfold readPayload
  split
  next hlt =>
    -- a part of the payload is still to come
    obtain ⟨ok, r, hr, -, hbytes', hends, hchunks⟩ := s.net.recvAll_spec (f.frame.wire.length - t.length)
    have hbytes' := hbytes' (Or.inl (by omega))
    have hsub : s.body.length - f.header.length = t.length := by omega
    have hlength : intLength (f.frame.wire.length - t.length) = f.frame.wire.length - t.length :=
      intLength_of_lt (by omega)
    refine ⟨[], r, ?_, ?_, Nat.zero_le _, ?_, hchunks, ?_⟩
    · simp only [hsub, hlength, hr, hdrop]
      rw [List.take_append, List.take_of_length_le (by omega)] at htake
      rw [htake]
    · rw [List.drop_append, List.drop_of_length_le (by omega)] at hrest
      rw [hbytes']
      exact hrest
    · rw [hbytes', List.length_drop]
      omega
    · intro p hp
      have hmoved := hends (by omega) p hp
      constructor
      · rintro ⟨q, hq, hpq⟩
        rw [List.length_nil, Nat.zero_add] at hpq
        subst hpq
        exact ⟨_, hmoved.1 hq, by omega⟩
      · rintro ⟨q, hq, hpq⟩
        have hq' : q = p + (f.frame.wire.length - t.length) := by omega
        exact ⟨p, hmoved.2 (hq' ▸ hq), by rw [List.length_nil, Nat.zero_add]⟩
  next hle =>
    refine ⟨t.drop f.frame.wire.length, s.net, ?_, ?_, ?_, Nat.le_refl _, fun m hm => hm, ?_⟩
    · rw [List.take_append_of_le_length (by omega)] at htake
      rw [hdrop, htake, Nat.add_comm, ← List.drop_drop, hdrop]
    · rw [List.drop_append_of_le_length (by omega)] at hrest
      exact hrest
    · rw [List.length_drop]
      omega
    · intro p hp
      refine exists_congr fun q => and_congr_right fun _ => ?_
      rw [List.length_drop]
      omega

/-- With the header in the buffer, the loop serves the frame that the bytes read for the payload make, completed by what
the memory for the payload holds behind them. -/
private theorem readStep_header {t w data body : List UInt8} {net : Arrivals} (hbody : s.body = f.header ++ t)
    (hint : f.frame.wire.length < 2147483648)
    (hdata : (if f.frame.wire.length > 4096 then heap.malloc f.frame.wire.length
      else some (s.mem.cells.take f.frame.wire.length)) = some data)
    (hread : readPayload s f.header.length f.frame.wire.length = (w, body, net))
    (hwire : w ++ data.drop w.length = f.frame.wire) :
    readStep ri heap space s = some (
      if (serveFrame ri s.mem f.frame).2 then .exit (s.written ++ (serveFrame ri s.mem f.frame).1.written)
      else .next ⟨body, bufferAfter s.mem f.frame, net, s.written ++ (serveFrame ri s.mem f.frame).1.written⟩) := by
  have hmask : (s.body.drop (f.header.length - f.maskBytes.length)).take f.maskBytes.length = f.maskBytes := by
    have hsplit : s.body = (f.frame.bits :: f.second :: f.lengthBytes) ++ (f.maskBytes ++ t) := by
      rw [hbody, Sent.header]
      simp only [List.cons_append, List.append_assoc]
    have hhead : f.header.length - f.maskBytes.length = (f.frame.bits :: f.second :: f.lengthBytes).length := by
      rw [Sent.header]
      simp only [List.length_cons, List.length_append]
      omega
    rw [hhead, hsplit, List.drop_left, List.take_left]
  have hframe : (⟨s.body.headD 0,
      if f.maskBytes.length > 0 then some ((Mem.fill 4 0).overlay f.maskBytes) else none,
      w ++ data.drop w.length⟩ : InFrame) = f.frame := by
    have hbits : s.body.headD 0 = f.frame.bits := by
      rw [hbody, Sent.header]
      rfl
    have hmem : (if f.maskBytes.length > 0 then some ((Mem.fill 4 0).overlay f.maskBytes) else none) =
        f.frame.mask := by
      unfold Sent.maskBytes
      cases f.frame.mask with
      | none => rfl
      | some mask =>
        have hpos : (Option.elim (some mask) [] Mem.cells).length > 0 := by
          show mask.cells.length > 0
          rw [mask.length_cells]
          exact Nat.zero_lt_succ 3
        rw [if_pos hpos]
        congr 1
        ext1
        show ((Mem.fill 4 0).overlay mask.cells).cells = mask.cells
        rw [Mem.cells_overlay _ (Nat.le_of_eq mask.length_cells), mask.length_cells]
        exact List.append_nil _
    rw [hbits, hmem, hwire]
  have hbound : ¬ (s.body.length < f.header.length ∨
      f.frame.wire.length + f.header.length ≥ 18446744073709551616) := by
    have := length_header_le f
    have hlen := congrArg List.length hbody
    rw [List.length_append] at hlen
    omega
  have hheader : websocketHeader s.body = some (f.header.length, f.maskBytes.length, f.frame.wire.length) := by
    rw [hbody, websocketHeader_header]
  unfold readStep
  simp only [hheader, hdata, if_neg hbound, hread, hmask, hframe]
  split <;> rfl

private theorem header_prefix_body {w : List UInt8} (hbytes : s.body ++ s.net.bytes = f.header ++ w)
    (hlen : f.header.length ≤ s.body.length) : ∃ t, s.body = f.header ++ t ∧ t ++ s.net.bytes = w := by
  have hprefix : f.header <+: s.body := by
    refine List.prefix_of_prefix_length_le ?_ (List.prefix_append s.body s.net.bytes) hlen
    rw [hbytes]
    exact List.prefix_append ..
  obtain ⟨t, ht⟩ := hprefix
  refine ⟨t, ht.symm, ?_⟩
  rw [← ht, List.append_assoc] at hbytes
  exact List.append_cancel_left hbytes

/-- A frame whose header is in the buffer is served. -/
theorem readStep_frame (hbytes : s.body ++ s.net.bytes = f.bytes ++ rest) (hlen : f.header.length ≤ s.body.length)
    (hf : f.Servable heap) :
    ∃ body net, readStep ri heap space s = some (
        if (serveFrame ri s.mem f.frame).2 then .exit (s.written ++ (serveFrame ri s.mem f.frame).1.written)
        else .next ⟨body, bufferAfter s.mem f.frame, net, s.written ++ (serveFrame ri s.mem f.frame).1.written⟩) ∧
      body ++ net.bytes = rest ∧ body.length ≤ s.body.length ∧ net.bytes.length ≤ s.net.bytes.length ∧
      (∀ m, (∀ c ∈ s.net.chunks, c.length ≤ m) → ∀ c ∈ net.chunks, c.length ≤ m) ∧
      ∀ p, 0 < p → (CutAt body net p ↔ CutAt s.body s.net (p + f.bytes.length)) := by
  rw [Sent.bytes, List.append_assoc] at hbytes
  obtain ⟨t, ht, hwire⟩ := header_prefix_body hbytes hlen
  obtain ⟨body, net, hread, hafter⟩ := readPayload_eq hf.1 ht hwire
  refine ⟨body, net, ?_, hafter⟩
  -- the memory for the payload is there, and the payload fills it
  obtain ⟨data, hdata, hdataLen⟩ : ∃ data, (if f.frame.wire.length > 4096 then heap.malloc f.frame.wire.length
      else some (s.mem.cells.take f.frame.wire.length)) = some data ∧ data.length = f.frame.wire.length := by
    split
    next hlong =>
      obtain ⟨block, hblock⟩ := Option.ne_none_iff_exists'.1 (hf.2 hlong)
      exact ⟨block, hblock, heap.length_malloc hblock⟩
    next hshort =>
      refine ⟨_, rfl, ?_⟩
      rw [List.length_take, s.mem.length_cells]
      omega
  refine readStep_header ht hf.1 hdata hread ?_
  rw [List.drop_of_length_le (Nat.le_of_eq hdataLen), List.append_nil]

private theorem length_header_of_maskedShort (hf : f.MaskedShort) : f.header.length = 6 := by
  have hmask := length_maskBytes f
  rw [hf.2, if_pos rfl] at hmask
  simp only [Sent.header, Sent.lengthBytes, hf.1, List.length_cons, List.nil_append, hmask]

/-! ### The whole loop -/

/-- Reading pauses after the fourth or fifth byte of a short masked frame that the loop gets to. -/
def CutHeader (ri : RequestInfo) (s : Reader) (fs : List Sent) : Prop :=
  ∃ fs₁ f fs₂, fs = fs₁ ++ f :: fs₂ ∧ afterFrames ri s.mem (fs₁.map Sent.frame) ≠ none ∧ f.MaskedShort ∧
    ∃ k, (k = 4 ∨ k = 5) ∧ CutAt s.body s.net ((sentBytes fs₁).length + k)

private theorem length_sentBytes_cons (f : Sent) (fs : List Sent) :
    (sentBytes (f :: fs)).length = f.bytes.length + (sentBytes fs).length := by
  rw [sentBytes, List.flatMap_cons, List.length_append]
  rfl

private theorem header_le_bytes (f : Sent) : f.header.length ≤ f.bytes.length := by
  rw [Sent.bytes, List.length_append]
  omega

/-- With the header of the first frame in the buffer, a cut is in one of the later frames. -/
private theorem cutHeader_cons {fs : List Sent} (hlen : f.header.length ≤ s.body.length) :
    CutHeader ri s (f :: fs) ↔ (serveFrame ri s.mem f.frame).2 = false ∧ ∃ fs₁ g fs₂, fs = fs₁ ++ g :: fs₂ ∧
      afterFrames ri (bufferAfter s.mem f.frame) (fs₁.map Sent.frame) ≠ none ∧ g.MaskedShort ∧
      ∃ k, (k = 4 ∨ k = 5) ∧ CutAt s.body s.net ((sentBytes fs₁).length + k + f.bytes.length) := by
  constructor
  · rintro ⟨fs₁, g, fs₂, heq, hafter, hg, k, hk, q, hq, hcut⟩
    cases fs₁ with
    | nil =>
      obtain ⟨rfl, rfl⟩ := List.cons.inj heq
      have := length_header_of_maskedShort hg
      have hnil : (sentBytes []).length = 0 := rfl
      omega
    | cons f' fs₁ =>
      obtain ⟨rfl, rfl⟩ := List.cons.inj heq
      rw [List.map_cons, afterFrames] at hafter
      split at hafter
      next => exact absurd rfl hafter
      next hstop =>
        rw [length_sentBytes_cons] at hcut
        exact ⟨Bool.not_eq_true _ ▸ hstop, fs₁, g, fs₂, rfl, hafter, hg, k, hk, q, hq, by omega⟩
  · rintro ⟨hstop, fs₁, g, fs₂, rfl, hafter, hg, k, hk, q, hq, hcut⟩
    refine ⟨f :: fs₁, g, fs₂, rfl, ?_, hg, k, hk, q, hq, ?_⟩
    · rw [List.map_cons, afterFrames, hstop]
      exact hafter
    · rw [length_sentBytes_cons]
      omega

/-- Reading the next piece while the first header is not complete moves no cut. -/
private theorem cutHeader_recv {fs : List Sent} {n : Nat} {d : List UInt8} {r : Arrivals}
    (hlen : s.body.length < f.header.length) (hnot : ¬ (f.MaskedShort ∧ (s.body.length = 4 ∨ s.body.length = 5)))
    (hrecv : s.net.recv n = (some d, r)) (hroom : ∀ c ∈ s.net.chunks, c.length ≤ n) :
    CutHeader ri s (f :: fs) ↔ CutHeader ri { s with body := s.body ++ d, net := r } (f :: fs) := by
  refine exists_congr fun fs₁ => exists_congr fun g => exists_congr fun fs₂ => and_congr_right fun heq =>
    and_congr_right fun _ => and_congr_right fun hg => exists_congr fun k => and_congr_right fun hk => ?_
  show (∃ q, s.net.EndsAt q ∧ s.body.length + q = (sentBytes fs₁).length + k) ↔
    ∃ q, r.EndsAt q ∧ (s.body ++ d).length + q = (sentBytes fs₁).length + k
  rw [List.length_append]
  constructor
  · rintro ⟨q, hq, hcut⟩
    by_cases hzero : q = 0
    · -- the cut would be in the header that is being read
      exfalso
      cases fs₁ with
      | nil =>
        obtain ⟨rfl, rfl⟩ := List.cons.inj heq
        have hnil : (sentBytes []).length = 0 := rfl
        exact hnot ⟨hg, by omega⟩
      | cons f' fs₁ =>
        obtain ⟨rfl, rfl⟩ := List.cons.inj heq
        have := header_le_bytes f
        rw [length_sentBytes_cons] at hcut
        omega
    · have hge : d.length ≤ q := by
        by_contra hlt
        exact Arrivals.not_endsAt_lt_recv hrecv (by omega) (by omega) hq
      by_cases heq : q = d.length
      · exact ⟨0, ⟨[], r.chunks, rfl, rfl⟩, by omega⟩
      · refine ⟨q - d.length, (Arrivals.endsAt_recv hrecv (by omega)).2 ?_, by omega⟩
        rw [Nat.sub_add_cancel hge]
        exact hq
  · rintro ⟨q, hq, hcut⟩
    by_cases hzero : q = 0
    · exact ⟨d.length, Arrivals.endsAt_length_recv hrecv hroom, by omega⟩
    · exact ⟨q + d.length, (Arrivals.endsAt_recv hrecv (by omega)).1 hq, by omega⟩

private theorem readStep_more (hspace : 14 ≤ space) (hroom : ∀ c ∈ s.net.chunks, c.length ≤ space - 14)
    (hlt : s.body.length < f.header.length) (hnone : websocketHeader s.body = none) (hne : s.net.bytes ≠ []) :
    ∃ d r, s.net.recv (space - s.body.length) = (some d, r) ∧ d ≠ [] ∧ s.net.bytes = d ++ r.bytes ∧
      (∀ c ∈ s.net.chunks, c.length ≤ space - s.body.length) ∧ (∀ c ∈ r.chunks, c.length ≤ space - 14) ∧
      readStep ri heap space s = some (.next { s with body := s.body ++ d, net := r }) := by
  have := length_header_le f
  obtain ⟨d, r, hrecv, hd, -, hsplit⟩ := Arrivals.recv_spec hne (show 0 < space - s.body.length by omega)
  refine ⟨d, r, hrecv, hd, hsplit, ?_, ?_, ?_⟩
  · intro c hc
    have := hroom c hc
    omega
  · have hrest := Arrivals.chunks_recv hroom (space - s.body.length)
    rwa [hrecv] at hrest
  · rw [readStep, hnone, hrecv]
    cases d with
    | nil => exact absurd rfl hd
    | cons b bs => rfl

/-- With no header in the buffer and nothing to be read, the loop ends. -/
private theorem readStep_end (hnone : websocketHeader s.body = none) (hnil : s.net.bytes = []) :
    readStep ri heap space s = some (.exit s.written) := by
  rw [readStep, hnone]
  rcases Arrivals.recv_of_bytes_nil hnil (space - s.body.length) with ⟨r, hfail⟩ | hend
  · rw [hfail]
  · rw [hend]

private theorem websocketHeader_nil : websocketHeader [] = none := rfl

private theorem body_prefix_header {w : List UInt8} (hbytes : s.body ++ s.net.bytes = f.header ++ w)
    (hlt : s.body.length < f.header.length) : s.body <+: f.header := by
  refine List.prefix_of_prefix_length_le (List.prefix_append s.body s.net.bytes) ?_ (Nat.le_of_lt hlt)
  rw [hbytes]
  exact List.prefix_append ..

private theorem readWebsocket_run (hspace : 14 ≤ space) (m : Nat) : ∀ (s : Reader) (fs : List Sent) (rest : List UInt8),
    s.net.bytes.length + fs.length < m → s.body ++ s.net.bytes = sentBytes fs ++ rest →
    (rest = [] ∨ afterFrames ri s.mem (fs.map Sent.frame) = none) →
    (∀ c ∈ s.net.chunks, c.length ≤ space - 14) →
    (∀ f ∈ fs, f.Servable heap) →
    ∃ fuel, (CutHeader ri s fs ∧ readWebsocket ri heap space fuel s = .fault) ∨
      (¬ CutHeader ri s fs ∧
        readWebsocket ri heap space fuel s = .ret (s.written ++ serveFrames ri s.mem (fs.map Sent.frame))) := by
  induction m with
  | zero =>
    intro s fs rest hm
    omega
  | succ m ih =>
    intro s fs rest hm hbytes hrest hroom hserve
    cases fs with
    | nil =>
      -- everything has been read, and the connection has ended
      have hnil : rest = [] := hrest.resolve_right (by simp [afterFrames])
      rw [hnil, List.append_nil] at hbytes
      obtain ⟨hbody, hnet⟩ := List.append_eq_nil_iff.1 (hbytes.trans (show sentBytes [] = [] from rfl))
      refine ⟨1, Or.inr ⟨?_, ?_⟩⟩
      · rintro ⟨fs₁, f, fs₂, heq, -⟩
        cases fs₁ <;> cases heq
      · rw [List.map_nil, serveFrames, List.append_nil]
        exact loop_exit (readStep_end (by rw [hbody]; exact websocketHeader_nil) hnet)
    | cons f fs =>
      rw [sentBytes, List.flatMap_cons, List.append_assoc] at hbytes
      have hf := hserve f List.mem_cons_self
      by_cases hlen : f.header.length ≤ s.body.length
      · obtain ⟨body, net, hstep, hbytes', hbodyLe, hnetLe, hchunks, hcuts⟩ := readStep_frame hbytes hlen hf
        cases hstop : (serveFrame ri s.mem f.frame).2 with
        | true =>
          rw [hstop, if_pos rfl] at hstep
          refine ⟨1, Or.inr ⟨?_, ?_⟩⟩
          · rw [cutHeader_cons hlen, hstop]
            exact fun h => Bool.noConfusion h.1
          · rw [List.map_cons, serveFrames, hstop, if_pos rfl, List.append_nil]
            exact loop_exit hstep
        | false =>
          rw [hstop, if_neg Bool.false_ne_true] at hstep
          have hrest' := hrest.imp_right
            fun h => by rwa [List.map_cons, afterFrames, hstop, if_neg Bool.false_ne_true] at h
          obtain ⟨fuel, hrun⟩ := ih
            ⟨body, bufferAfter s.mem f.frame, net, s.written ++ (serveFrame ri s.mem f.frame).1.written⟩ fs rest
            (by rw [List.length_cons] at hm; show net.bytes.length + _ < m; omega) hbytes' hrest' (hchunks _ hroom)
            (fun g hg => hserve g (List.mem_cons_of_mem _ hg))
          have hcut : CutHeader ri s (f :: fs) ↔ CutHeader ri
              ⟨body, bufferAfter s.mem f.frame, net, s.written ++ (serveFrame ri s.mem f.frame).1.written⟩ fs := by
            rw [cutHeader_cons hlen, hstop]
            simp only [true_and]
            refine exists_congr fun fs₁ => exists_congr fun g => exists_congr fun fs₂ => and_congr_right fun _ =>
              and_congr_right fun _ => and_congr_right fun _ => exists_congr fun k => and_congr_right fun hk => ?_
            exact (hcuts _ (by omega)).symm
          refine ⟨fuel + 1, ?_⟩
          rw [hcut, readWebsocket, loop_next hstep, List.map_cons, serveFrames, hstop, if_neg Bool.false_ne_true,
            ← List.append_assoc]
          exact hrun
      · have hlt : s.body.length < f.header.length := Nat.not_le.1 hlen
        rw [Sent.bytes, List.append_assoc] at hbytes
        rcases websocketHeader_part f (body_prefix_header hbytes hlt) hlt with ⟨hnone, hnot⟩ | ⟨hsome, hshort, hk⟩
        · -- the header is not complete
          have hne : s.net.bytes ≠ [] := by
            intro hnil
            have htotal := congrArg List.length hbytes
            rw [hnil, List.append_nil, List.length_append] at htotal
            omega
          obtain ⟨d, r, hrecv, hd, hsplit, hroom', hroomR, hstep⟩ := readStep_more hspace hroom hlt hnone hne
          obtain ⟨fuel, hrun⟩ := ih { s with body := s.body ++ d, net := r } (f :: fs) rest
            (by
              have := List.length_pos_iff.2 hd
              rw [hsplit, List.length_append] at hm
              show r.bytes.length + _ < m
              omega)
            (by
              show s.body ++ d ++ r.bytes = _
              rw [List.append_assoc, ← hsplit, hbytes]
              simp only [sentBytes, List.flatMap_cons, Sent.bytes, List.append_assoc])
            hrest hroomR hserve
          refine ⟨fuel + 1, ?_⟩
          rw [cutHeader_recv hlt hnot hrecv hroom', readWebsocket, loop_next hstep]
          exact hrun
        · -- the assertion fails
          refine ⟨1, Or.inl ⟨⟨[], f, fs, rfl, by simp [afterFrames], hshort, s.body.length, hk, 0,
            ⟨[], s.net.chunks, rfl, rfl⟩, (Nat.zero_add _).symm⟩, ?_⟩⟩
          have hwire : f.frame.wire.length < 126 := by
            have := f.fits
            rwa [hshort.1] at this
          apply loop_fault
          rw [readStep, hsome]
          simp only [show ¬ f.frame.wire.length > 4096 by omega, ↓reduceIte, show s.body.length < 6 by omega, true_or]

/-- The loop of `read_websocket` for a client that sends whole frames, in pieces that fit into the buffer, up to a pause
that is longer than the timeout or the end of the connection: it serves exactly these frames, in order, up to the first
one that ends the conversation, unless reading pauses after the fourth or fifth byte of a short masked frame.  Then the
assertion fails. -/
theorem readWebsocket_spec (hspace : 14 ≤ space) (hroom : ∀ c ∈ s.net.chunks, c.length ≤ space - 14) (fs : List Sent)
    (hbytes : s.body ++ s.net.bytes = sentBytes fs ++ rest)
    (hrest : rest = [] ∨ afterFrames ri s.mem (fs.map Sent.frame) = none)
    (hserve : ∀ f ∈ fs, f.Servable heap) :
    ∃ fuel, (CutHeader ri s fs ∧ readWebsocket ri heap space fuel s = .fault) ∨
      (¬ CutHeader ri s fs ∧
        readWebsocket ri heap space fuel s = .ret (s.written ++ serveFrames ri s.mem (fs.map Sent.frame))) :=
  readWebsocket_run hspace (s.net.bytes.length + fs.length + 1) s fs rest (Nat.lt_succ_self _) hbytes hrest hroom hserve

/-- The text `hi`, masked. -/
def hiSent : Sent := ⟨⟨0x81, some ⟨[1, 2, 3, 4], rfl⟩, ascii ['i', 'k']⟩, .short, show 2 < 126 by decide⟩

/-- The frame arrives in two pieces of four bytes. -/
def hiReader : Reader :=
  ⟨[], Mem.fill 4096 0, ⟨[hiSent.bytes.take 4, hiSent.bytes.drop 4], false⟩, []⟩

def noHeap : Heap := ⟨fun _ => none, fun h => by cases h⟩

theorem readWebsocket_spec_hiReader : ∃ fuel, readWebsocket rootRequest noHeap 16000 fuel hiReader = .fault := by
  have hservable : hiSent.Servable noHeap :=
    ⟨show 2 < 2147483648 by decide, fun h => absurd h (show ¬ 2 > 4096 by decide)⟩
  have hspec := @readWebsocket_spec rootRequest noHeap 16000 hiReader [] (by decide) (by decide) [hiSent] (by decide)
    (Or.inl rfl) (List.forall_mem_singleton.2 hservable)
  obtain ⟨fuel, ⟨-, hfault⟩ | ⟨hnot, -⟩⟩ := hspec
  · exact ⟨fuel, hfault⟩
  · exact absurd ⟨[], hiSent, [], rfl, by simp [afterFrames], ⟨rfl, rfl⟩, 4, Or.inl rfl, 4,
      ⟨[hiSent.bytes.take 4], [hiSent.bytes.drop 4], rfl, by decide⟩, rfl⟩ hnot

/-! ### A payload that does not arrive -/

private theorem readWebsocket_truncated_run (hspace : 14 ≤ space) {w data : List UInt8}
    (hw : w.length < f.frame.wire.length) (hint : f.frame.wire.length < 2147483648)
    (hwire : w ++ data.drop w.length = f.frame.wire) (n : Nat) : ∀ s : Reader, s.net.bytes.length < n → s.net.Prompt →
    (∀ c ∈ s.net.chunks, c.length ≤ space - 14) → s.body ++ s.net.bytes = f.header ++ w →
    (if f.frame.wire.length > 4096 then heap.malloc f.frame.wire.length
      else some (s.mem.cells.take f.frame.wire.length)) = some data → ¬ CutHeader ri s [f] →
    ∃ fuel, readWebsocket ri heap space fuel s = .ret (s.written ++ serveFrames ri s.mem [f.frame]) := by
  induction n with
  | zero =>
    intro s hn
    omega
  | succ n ih =>
    intro s hn hprompt hroom hbytes hdata hcut
    by_cases hlen : f.header.length ≤ s.body.length
    · obtain ⟨t, ht, hrest⟩ := header_prefix_body hbytes hlen
      have hsum := congrArg List.length hrest
      rw [List.length_append] at hsum
      obtain ⟨ok, r, hr, -, hrbytes, -⟩ := s.net.recvAll_spec (f.frame.wire.length - t.length)
      have hbodyLen := congrArg List.length ht
      rw [List.length_append] at hbodyLen
      have hread : readPayload s f.header.length f.frame.wire.length = (w, [], r) := by
        have hsub : s.body.length - f.header.length = t.length := by omega
        have hlength : intLength (f.frame.wire.length - t.length) = f.frame.wire.length - t.length :=
          intLength_of_lt (by omega)
        rw [readPayload, if_pos (by omega)]
        simp only [hsub, hlength, hr]
        rw [ht, List.drop_left, List.take_of_length_le (by omega), hrest]
      have hstep := @readStep_header ri heap space s f t w data [] r ht hint hdata hread hwire
      have hnil : r.bytes = [] := by
        rw [hrbytes (Or.inr hprompt)]
        exact List.drop_of_length_le (by omega)
      cases hstop : (serveFrame ri s.mem f.frame).2 with
      | true =>
        rw [hstop, if_pos rfl] at hstep
        refine ⟨1, ?_⟩
        rw [serveFrames, hstop, if_pos rfl, List.append_nil]
        exact loop_exit hstep
      | false =>
        rw [hstop, if_neg Bool.false_ne_true] at hstep
        refine ⟨2, ?_⟩
        rw [readWebsocket, loop_next hstep, serveFrames, hstop, if_neg Bool.false_ne_true, serveFrames, List.append_nil]
        exact loop_exit (readStep_end websocketHeader_nil hnil)
    · have hlt : s.body.length < f.header.length := Nat.not_le.1 hlen
      have hne : s.net.bytes ≠ [] := by
        intro hnil
        have htotal := congrArg List.length hbytes
        rw [hnil, List.append_nil, List.length_append] at htotal
        omega
      rcases websocketHeader_part f (body_prefix_header hbytes hlt) hlt with ⟨hnone, hnot⟩ | ⟨-, hshort, hk⟩
      · obtain ⟨d, r, hrecv, hd, hsplit, hroom', hroomR, hstep⟩ :=
          @readStep_more ri heap space s f hspace hroom hlt hnone hne
        rw [cutHeader_recv hlt hnot hrecv hroom'] at hcut
        obtain ⟨fuel, hrun⟩ := ih { s with body := s.body ++ d, net := r }
          (by
            have := List.length_pos_iff.2 hd
            rw [hsplit, List.length_append] at hn
            show r.bytes.length < n
            omega)
          (by
            have hrest := hprompt.recv (space - s.body.length)
            rwa [hrecv] at hrest)
          hroomR
          (by
            rw [hsplit, ← List.append_assoc] at hbytes
            exact hbytes)
          hdata hcut
        exact ⟨fuel + 1, by rw [readWebsocket, loop_next hstep]; exact hrun⟩
      · exact absurd ⟨[], f, [], rfl, by simp [afterFrames], hshort, s.body.length, hk, 0,
          ⟨[], s.net.chunks, rfl, rfl⟩, (Nat.zero_add _).symm⟩ hcut

/-- A frame whose payload is cut off by the end of the connection is served as if it were complete: the missing bytes
are those that the memory held before, the payloads of earlier frames in `mem` or what was in the new block. -/
theorem readWebsocket_truncated (hspace : 14 ≤ space) (hprompt : s.net.Prompt)
    (hroom : ∀ c ∈ s.net.chunks, c.length ≤ space - 14) {w data : List UInt8}
    (hbytes : s.body ++ s.net.bytes = f.header ++ w) (hw : w.length < f.frame.wire.length)
    (hint : f.frame.wire.length < 2147483648)
    (hdata : (if f.frame.wire.length > 4096 then heap.malloc f.frame.wire.length
      else some (s.mem.cells.take f.frame.wire.length)) = some data)
    (hwire : w ++ data.drop w.length = f.frame.wire) (hcut : ¬ CutHeader ri s [f]) :
    ∃ fuel, readWebsocket ri heap space fuel s = .ret (s.written ++ serveFrames ri s.mem [f.frame]) :=
  readWebsocket_truncated_run hspace hw hint hwire (s.net.bytes.length + 1) s (Nat.lt_succ_self _) hprompt hroom hbytes
    hdata hcut

/-- Three bytes of text are announced, one is sent. -/
def cutOff : Sent := ⟨⟨0x81, none, ascii ['h', 'x', 'x']⟩, .short, show 3 < 126 by decide⟩

theorem readWebsocket_truncated_cutOff :
    ∃ fuel, readWebsocket rootRequest noHeap 16000 fuel
      ⟨cutOff.header ++ ascii ['h'], Mem.fill 4096 120, ⟨[], false⟩, []⟩ =
        .ret ([] ++ serveFrames rootRequest (Mem.fill 4096 120) [cutOff.frame]) := by
  refine @readWebsocket_truncated rootRequest noHeap 16000
    ⟨cutOff.header ++ ascii ['h'], Mem.fill 4096 120, ⟨[], false⟩, []⟩ cutOff (by decide)
    (List.forall_mem_nil _) (by decide) (ascii ['h']) (List.replicate 3 120) (by decide) (by decide) (by decide)
    (by decide) (by decide) ?_
  rintro ⟨fs₁, g, fs₂, heq, -, hg, -⟩
  have hmem : g ∈ [cutOff] := by
    rw [heq]
    simp
  rw [List.mem_singleton.1 hmem] at hg
  cases hg.2

end Tinyweb

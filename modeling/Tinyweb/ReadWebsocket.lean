import Tinyweb.Lib.Memory
import Tinyweb.Websocket

/-!
# The payload buffer of `read_websocket` (`mongoose.c`)

`read_websocket` keeps one array `mem` of 4096 bytes on its stack for the whole connection.  A frame of at most 4096
bytes is copied to its beginning and unmasked in place, a longer one goes to a block of its own; nothing is cleared
between frames.  `serveFrame` is this part of an iteration together with the callback, `afterFrames` the buffer after a
history of frames that leaves the loop running.  `serveFrames_eq_serveCalls` connects the loop with the sequences of
calls that the stream of replies is about.

The callback compares six bytes with `.close` whatever the payload length is, so for a payload of fewer than six bytes
the bytes of earlier frames take part in the comparison.  They decide the reply exactly if the payload is a prefix of
`.close` (`historyFree_iff`).
-/

namespace Tinyweb

open Clib

/-- A frame as it arrives: the first byte, the mask, and the payload bytes as sent. -/
structure InFrame where
  bits : UInt8
  mask : Option (Mem 4)
  wire : List UInt8

/-- `for (i = 0; i < n; i++) data[i] ^= mask[i % 4]` -/
def applyMask (mask : Mem 4) (n : Nat) (data : List UInt8) : List UInt8 :=
  data.mapIdx fun i b => if i < n then b ^^^ mask.cells.getD (i % 4) 0 else b

/-- The memory at `data` after the payload has been copied and unmasked. -/
def InFrame.dataCells (f : InFrame) (mem : Mem 4096) : List UInt8 :=
  let data := if f.wire.length > 4096 then f.wire else (mem.overlay f.wire).cells
  match f.mask with
  | some mask => applyMask mask f.wire.length data
  | none => data

def InFrame.payload (f : InFrame) : List UInt8 :=
  match f.mask with
  | some mask => applyMask mask f.wire.length f.wire
  | none => f.wire

theorem length_applyMask (mask : Mem 4) (n : Nat) (data : List UInt8) :
    (applyMask mask n data).length = data.length := by
  rw [applyMask, List.length_mapIdx]

theorem InFrame.length_payload (f : InFrame) : f.payload.length = f.wire.length := by
  unfold payload
  split
  · exact length_applyMask ..
  · rfl

private theorem applyMask_append (mask : Mem 4) (w l : List UInt8) :
    applyMask mask w.length (w ++ l) = applyMask mask w.length w ++ l := by
  unfold applyMask
  rw [List.mapIdx_append]
  congr 1
  apply List.ext_getElem
  · simp
  · intro i h1 h2
    have hi : ¬ i + w.length < w.length := by omega
    rw [List.getElem_mapIdx, if_neg hi]

/-- The payload stands at the beginning of the memory at `data`; behind it are the bytes that were there before. -/
theorem InFrame.dataCells_eq (f : InFrame) (mem : Mem 4096) :
    f.dataCells mem = f.payload ++ if f.wire.length > 4096 then [] else mem.cells.drop f.wire.length := by
  have hcells : (if f.wire.length > 4096 then f.wire else (mem.overlay f.wire).cells) =
      f.wire ++ if f.wire.length > 4096 then [] else mem.cells.drop f.wire.length := by
    split
    · rw [List.append_nil]
    · rename_i h
      exact Mem.cells_overlay mem (by omega)
  unfold dataCells payload
  rw [hcells]
  cases f.mask with
  | none => rfl
  | some mask => exact applyMask_append mask _ _

theorem InFrame.length_dataCells (f : InFrame) (mem : Mem 4096) :
    (f.dataCells mem).length = max f.wire.length 4096 := by
  rw [dataCells_eq, List.length_append, length_payload]
  split
  · simp only [List.length_nil]
    omega
  · rw [List.length_drop, mem.length_cells]
    omega

def InFrame.toPayload (f : InFrame) (mem : Mem 4096) : Payload where
  mem := f.dataCells mem
  len := f.wire.length
  len_le := by rw [f.length_dataCells]; omega
  six_le := by rw [f.length_dataCells]; omega

/-- One frame of `read_websocket`: the reply of the callback, and whether the loop stops. -/
def serveFrame (ri : RequestInfo) (mem : Mem 4096) (f : InFrame) : Reply × Bool :=
  let reply := websocketDataHandler ri f.bits (f.toPayload mem)
  (reply, reply.ret = 0 ∨ f.bits &&& 0x0f = 8)

def bufferAfter (mem : Mem 4096) (f : InFrame) : Mem 4096 :=
  if h : f.wire.length > 4096 then mem
  else ⟨f.dataCells mem, by rw [f.length_dataCells]; omega⟩

/-- The buffer after a history of frames, if the loop is still running then. -/
def afterFrames (ri : RequestInfo) : Mem 4096 → List InFrame → Option (Mem 4096)
  | mem, [] => some mem
  | mem, f :: fs => if (serveFrame ri mem f).2 then none else afterFrames ri (bufferAfter mem f) fs

/-- Everything written while frames arrive one after another. -/
def serveFrames (ri : RequestInfo) : Mem 4096 → List InFrame → List UInt8
  | _, [] => []
  | mem, f :: fs =>
    (serveFrame ri mem f).1.written ++ if (serveFrame ri mem f).2 then [] else serveFrames ri (bufferAfter mem f) fs

/-- The calls of the callback, with the memory that each of them sees. -/
def callsOf : Mem 4096 → List InFrame → List Call
  | _, [] => []
  | mem, f :: fs => ⟨f.bits, f.toPayload mem⟩ :: callsOf (bufferAfter mem f) fs

/-- The loop over frames hands its calls to the callback one after another. -/
theorem serveFrames_eq_serveCalls (ri : RequestInfo) (mem : Mem 4096) (fs : List InFrame) :
    serveFrames ri mem fs = serveCalls ri (callsOf mem fs) := by
  induction fs generalizing mem with
  | nil => rfl
  | cons f fs ih => simp only [serveFrames, callsOf, serveCalls, serveFrame, ih, decide_eq_true_eq]

/-- The reply to a frame with these first byte and payload is the same after any two histories, whatever was on the
stack before them. -/
def HistoryFree (ri : RequestInfo) (bits : UInt8) (payload : List UInt8) : Prop :=
  ∀ (mem₁ mem₂ mem₁' mem₂' : Mem 4096) (hist₁ hist₂ : List InFrame),
    afterFrames ri mem₁ hist₁ = some mem₁' → afterFrames ri mem₂ hist₂ = some mem₂' →
    ∀ f₁ f₂ : InFrame, f₁.bits = bits → f₂.bits = bits → f₁.payload = payload → f₂.payload = payload →
      serveFrame ri mem₁' f₁ = serveFrame ri mem₂' f₂

/-! ### When the history matters -/

private theorem toPayload_take (f : InFrame) (mem : Mem 4096) (n : Nat) (hn : n ≤ f.wire.length) :
    (f.toPayload mem).mem.take n = f.payload.take n := by
  show (f.dataCells mem).take n = _
  rw [f.dataCells_eq, List.take_append_of_le_length (by rw [f.length_payload]; exact hn)]

/-- Two frames with the same first byte and payload get the same reply, if both or neither take the close branch. -/
private theorem serveFrame_congr {ri : RequestInfo} {mem₁ mem₂ : Mem 4096} {f₁ f₂ : InFrame} (hbits : f₁.bits = f₂.bits)
    (hpay : f₁.payload = f₂.payload)
    (hcl : Call.Closes ⟨f₁.bits, f₁.toPayload mem₁⟩ ↔ Call.Closes ⟨f₂.bits, f₂.toPayload mem₂⟩) :
    serveFrame ri mem₁ f₁ = serveFrame ri mem₂ f₂ := by
  have hlen : f₁.wire.length = f₂.wire.length := by rw [← f₁.length_payload, ← f₂.length_payload, hpay]
  have htake : ∀ n ≤ f₁.wire.length, (f₁.toPayload mem₁).mem.take n = (f₂.toPayload mem₂).mem.take n := by
    intro n hn
    rw [toPayload_take f₁ mem₁ n hn, toPayload_take f₂ mem₂ n (by omega), hpay]
  have hl₁ : (f₁.toPayload mem₁).len = f₁.wire.length := rfl
  have hl₂ : (f₂.toPayload mem₂).len = f₁.wire.length := hlen.symm
  suffices h : websocketDataHandler ri f₁.bits (f₁.toPayload mem₁) =
      websocketDataHandler ri f₂.bits (f₂.toPayload mem₂) by
    rw [hbits] at h
    simp only [serveFrame, hbits, h]
  by_cases hri : ri.IsEcho
  · rw [websocketDataHandler_of_isEcho hri, websocketDataHandler_of_isEcho hri]
    by_cases hc : Call.Closes ⟨f₁.bits, f₁.toPayload mem₁⟩
    · rw [websocketData_of_closes hc, websocketData_of_closes (hcl.1 hc)]
      simp only [hl₁, hl₂]
      rw [htake _ (Nat.min_le_left ..)]
    · rw [websocketData_of_not_closes hc, websocketData_of_not_closes (mt hcl.2 hc)]
      simp only [hl₁, hl₂, hbits]
      rw [htake _ (Nat.min_le_left ..)]
  · rw [websocketDataHandler_of_not_isEcho hri, websocketDataHandler_of_not_isEcho hri]

/-- The payload alone settles the comparison with `.close`, unless it is a prefix of `.close` of fewer than six
bytes. -/
private theorem dotClose_prefix_append_iff {p t : List UInt8} (h : 6 ≤ p.length ∨ ¬ p <+: dotClose) :
    dotClose <+: p ++ t ↔ dotClose <+: p := by
  constructor
  · intro hpre
    rcases h with h | h
    · exact List.prefix_of_prefix_length_le hpre (List.prefix_append p t) h
    · by_cases hlen : 6 ≤ p.length
      · exact List.prefix_of_prefix_length_le hpre (List.prefix_append p t) hlen
      · exfalso
        apply h
        refine List.prefix_of_prefix_length_le (List.prefix_append p t) hpre ?_
        show p.length ≤ 6
        omega
  · intro hpre
    exact hpre.trans (List.prefix_append p t)

private theorem closes_toPayload_iff {f : InFrame} (h : 6 ≤ f.payload.length ∨ ¬ f.payload <+: dotClose)
    (mem : Mem 4096) :
    Call.Closes ⟨f.bits, f.toPayload mem⟩ ↔ f.bits &&& 0x0f = 8 ∨ dotClose <+: f.payload := by
  have hmem : dotClose <+: f.dataCells mem ↔ dotClose <+: f.payload := by
    rw [f.dataCells_eq]
    exact dotClose_prefix_append_iff h
  exact or_congr_right hmem

private theorem dotClose_prefix_append_iff_eq {q t : List UInt8} (hq : q.length = 6) :
    dotClose <+: q ++ t ↔ q = dotClose := by
  constructor
  · intro h
    have hpre : dotClose <+: q := List.prefix_of_prefix_length_le h (List.prefix_append q t) hq.ge
    exact (hpre.eq_of_length hq.symm).symm
  · rintro rfl
    exact List.prefix_append ..

/-- A text frame of six bytes other than `.close` leaves the loop running and its bytes at the beginning of the
buffer. -/
private theorem afterFrames_six {ri : RequestInfo} (hri : ri.IsEcho) (mem : Mem 4096) {w : List UInt8}
    (hw : w.length = 6) (hne : w ≠ dotClose) :
    afterFrames ri mem [⟨0x81, none, w⟩] = some (mem.overlay w) := by
  have hlen : ¬ w.length > 4096 := by omega
  have hcells : InFrame.dataCells ⟨0x81, none, w⟩ mem = (mem.overlay w).cells := by
    simp only [InFrame.dataCells, hlen, ↓reduceIte]
  have hc : ¬ Call.Closes ⟨0x81, InFrame.toPayload ⟨0x81, none, w⟩ mem⟩ := by
    rintro (h | h)
    · exact absurd (show (0x81 : UInt8) &&& 0x0f = 8 from h) (by decide)
    · have h' : dotClose <+: (mem.overlay w).cells := hcells ▸ h
      rw [Mem.cells_overlay mem (by omega), dotClose_prefix_append_iff_eq hw] at h'
      exact hne h'
  have hrun : (serveFrame ri mem ⟨0x81, none, w⟩).2 = false := by
    simp only [serveFrame, websocketDataHandler_of_isEcho hri, websocketData_of_not_closes hc]
    rfl
  have hbuf : bufferAfter mem ⟨0x81, none, w⟩ = mem.overlay w := by
    ext1
    simp only [bufferAfter, hlen, ↓reduceDIte, hcells]
  simp only [afterFrames, hrun, hbuf, Bool.false_eq_true, ↓reduceIte]

/-- The return value for a short payload on a buffer that begins with the six bytes `w`. -/
private theorem ret_of_short {ri : RequestInfo} (hri : ri.IsEcho) {bits : UInt8} (hbits : bits &&& 0x0f ≠ 8)
    {p w : List UInt8} (hp : p.length < 6) (hw : w.length = 6) (mem : Mem 4096) :
    (serveFrame ri (mem.overlay w) ⟨bits, none, p⟩).1.ret = if p ++ w.drop p.length = dotClose then 0 else 1 := by
  have hcells : InFrame.dataCells ⟨bits, none, p⟩ (mem.overlay w) =
      p ++ w.drop p.length ++ mem.cells.drop w.length := by
    have hlen : ¬ p.length > 4096 := by omega
    rw [InFrame.dataCells_eq, Mem.cells_overlay mem (by omega)]
    simp only [InFrame.payload, hlen, ↓reduceIte, List.append_assoc]
    rw [List.drop_append_of_le_length (by omega)]
  have hsix : (p ++ w.drop p.length).length = 6 := by
    rw [List.length_append, List.length_drop, hw]
    omega
  have hiff : Call.Closes ⟨bits, InFrame.toPayload ⟨bits, none, p⟩ (mem.overlay w)⟩ ↔
      p ++ w.drop p.length = dotClose := by
    rw [← dotClose_prefix_append_iff_eq hsix, ← hcells]
    exact or_iff_right hbits
  simp only [serveFrame, websocketDataHandler_of_isEcho hri]
  split
  · rename_i h
    rw [websocketData_of_closes (hiff.2 h)]
  · rename_i h
    rw [websocketData_of_not_closes (mt hiff.1 h)]

def sixX : List UInt8 := ascii ['x', 'x', 'x', 'x', 'x', 'x']

def xClose : List UInt8 := ascii ['x', 'c', 'l', 'o', 's', 'e']

private theorem take_append_drop_sixX : ∀ n < 6, dotClose.take n ++ sixX.drop n ≠ dotClose := by decide

private theorem take_append_drop_xClose : ∀ n < 6, 0 < n → dotClose.take n ++ xClose.drop n = dotClose := by decide

/-- For a proper prefix of `.close` there are two histories, from the same stack content, that lead to different
replies. -/
private theorem exists_histories {ri : RequestInfo} (hri : ri.IsEcho) {bits : UInt8} (hbits : bits &&& 0x0f ≠ 8)
    {p : List UInt8} (hp : p.length < 6) (hpre : p <+: dotClose) :
    ∃ mem mem₁ mem₂ hist₁ hist₂, afterFrames ri mem hist₁ = some mem₁ ∧ afterFrames ri mem hist₂ = some mem₂ ∧
      serveFrame ri mem₁ ⟨bits, none, p⟩ ≠ serveFrame ri mem₂ ⟨bits, none, p⟩ := by
  have hpt : p = dotClose.take p.length := List.prefix_iff_eq_take.1 hpre
  have hx : p ++ sixX.drop p.length ≠ dotClose := by
    have h := take_append_drop_sixX p.length hp
    rw [← hpt] at h
    exact h
  -- the second history leaves bytes that complete `p` to `.close`
  obtain ⟨mem, w, hist₂, hw, hhist, hwp⟩ : ∃ (mem : Mem 4096) (w : List UInt8) (hist₂ : List InFrame), w.length = 6 ∧
      afterFrames ri mem hist₂ = some (mem.overlay w) ∧ p ++ w.drop p.length = dotClose := by
    by_cases h0 : 0 < p.length
    · refine ⟨Mem.fill 4096 0, xClose, [⟨0x81, none, xClose⟩], rfl, afterFrames_six hri _ rfl (by decide), ?_⟩
      have h := take_append_drop_xClose p.length hp h0
      rw [← hpt] at h
      exact h
    · have hnil : p = [] := List.eq_nil_of_length_eq_zero (by omega)
      refine ⟨(Mem.fill 4096 0).overlay dotClose, dotClose, [], rfl, ?_, by rw [hnil]; rfl⟩
      rw [afterFrames, Mem.overlay_overlay _ (Nat.le_refl _) (by decide)]
  refine ⟨mem, _, _, [⟨0x81, none, sixX⟩], hist₂, afterFrames_six hri mem rfl (by decide), hhist, ?_⟩
  intro h
  have hret := congrArg (fun r => r.1.ret) h
  have hsix : sixX.length = 6 := rfl
  simp only [ret_of_short hri hbits hp hsix mem, ret_of_short hri hbits hp hw mem, hx, hwp, ↓reduceIte] at hret
  cases hret

/-- The reply to a frame is a function of the frame alone if and only if the connection is not an echo connection, or
the frame is a close frame, or its payload has at least six bytes, or it does not agree with the beginning of
`.close`. -/
theorem historyFree_iff (ri : RequestInfo) (bits : UInt8) (payload : List UInt8) :
    HistoryFree ri bits payload ↔
      ¬ ri.IsEcho ∨ bits &&& 0x0f = 8 ∨ 6 ≤ payload.length ∨ ¬ payload <+: dotClose := by
  constructor
  · intro hfree
    by_contra hcond
    simp only [not_or, not_not, Nat.not_le] at hcond
    obtain ⟨hri, hbits, hp, hpre⟩ := hcond
    obtain ⟨mem, mem₁, mem₂, hist₁, hist₂, h₁, h₂, hne⟩ := exists_histories hri hbits hp hpre
    exact hne (hfree mem mem mem₁ mem₂ hist₁ hist₂ h₁ h₂ _ _ rfl rfl rfl rfl)
  · intro hcond mem₁ mem₂ mem₁' mem₂' hist₁ hist₂ _ _ f₁ f₂ hb₁ hb₂ hp₁ hp₂
    rcases hcond with hri | h8 | hcond
    · simp only [serveFrame, websocketDataHandler_of_not_isEcho hri, hb₁, hb₂]
    · apply serveFrame_congr (hb₁.trans hb₂.symm) (hp₁.trans hp₂.symm)
      exact ⟨fun _ => Or.inl (hb₂ ▸ h8), fun _ => Or.inl (hb₁ ▸ h8)⟩
    · apply serveFrame_congr (hb₁.trans hb₂.symm) (hp₁.trans hp₂.symm)
      rw [closes_toPayload_iff (hp₁ ▸ hcond), closes_toPayload_iff (hp₂ ▸ hcond), hb₁, hb₂, hp₁, hp₂]

/-- After the text `xclose` the one-byte text `.` ends the conversation, after `xxxxxx` it is echoed. -/
theorem not_historyFree_dot :
    afterFrames rootRequest (Mem.fill 4096 0) [⟨0x81, none, sixX⟩] = some ((Mem.fill 4096 0).overlay sixX) ∧
      afterFrames rootRequest (Mem.fill 4096 0) [⟨0x81, none, xClose⟩] = some ((Mem.fill 4096 0).overlay xClose) ∧
      (serveFrame rootRequest ((Mem.fill 4096 0).overlay sixX) ⟨0x81, none, ascii ['.']⟩).1.ret = 1 ∧
      (serveFrame rootRequest ((Mem.fill 4096 0).overlay xClose) ⟨0x81, none, ascii ['.']⟩).1.ret = 0 ∧
      ¬ HistoryFree rootRequest 0x81 (ascii ['.']) := by
  have h₁ := afterFrames_six rootRequest_isEcho (Mem.fill 4096 0) (w := sixX) rfl (by decide)
  have h₂ := afterFrames_six rootRequest_isEcho (Mem.fill 4096 0) (w := xClose) rfl (by decide)
  have hbits : (0x81 : UInt8) &&& 0x0f ≠ 8 := by decide
  have hr₁ := ret_of_short rootRequest_isEcho hbits (p := ascii ['.']) (w := sixX) (by decide) rfl (Mem.fill 4096 0)
  have hr₂ := ret_of_short rootRequest_isEcho hbits (p := ascii ['.']) (w := xClose) (by decide) rfl (Mem.fill 4096 0)
  rw [if_neg (by decide)] at hr₁
  rw [if_pos (by decide)] at hr₂
  refine ⟨h₁, h₂, hr₁, hr₂, ?_⟩
  intro hfree
  have h := hfree _ _ _ _ _ _ h₁ h₂ ⟨0x81, none, ascii ['.']⟩ ⟨0x81, none, ascii ['.']⟩ rfl rfl rfl rfl
  rw [h, hr₂] at hr₁
  cases hr₁

end Tinyweb

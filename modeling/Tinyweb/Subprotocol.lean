import Tinyweb.Handshake

/-!
# The accepted subprotocol

A client offers subprotocols as a list of tokens, separated by commas with optional spaces around them (`Offer`).
`websocket_ready_handler` copies the first 99 bytes of the list and cuts them at the last comma.  What is left is one of
the tokens only if there is at most one comma among these bytes, directly behind the first token, or if there is none
and the 99 bytes happen to be a token (`readyHandler_offered_iff`).
-/

namespace Tinyweb

open Clib Http

structure Token where
  bytes : List UInt8
  ne_nil : bytes ≠ []
  no_comma : COMMA ∉ bytes
  no_space : SPACE ∉ bytes

/-- A further token of an offer, with the numbers of spaces before and behind the comma. -/
structure Further where
  before : Nat
  behind : Nat
  token : Token

structure Offer where
  first : Token
  rest : List Further

def spaces (k : Nat) : List UInt8 := List.replicate k SPACE

def Further.text (f : Further) : List UInt8 := spaces f.before ++ COMMA :: (spaces f.behind ++ f.token.bytes)

/-- The value of the request header. -/
def Offer.value (o : Offer) : List UInt8 := o.first.bytes ++ o.rest.flatMap Further.text

def Offer.tokens (o : Offer) : List (List UInt8) := o.first.bytes :: o.rest.map (·.token.bytes)

/-- The lists for which the handler answers with a token of the list.  If the first comma is among the first 99 bytes,
it stands directly behind the first token, and the second comma is not among them. -/
def Offer.Acceptable (o : Offer) : Prop :=
  match o.rest with
  | [] => o.first.bytes.length ≤ 99
  | f :: rest =>
    if o.first.bytes.length + f.before < 99 then
      f.before = 0 ∧ ∀ g ∈ rest.head?, 99 ≤ o.first.bytes.length + 1 + f.behind + f.token.bytes.length + g.before
    else 99 ≤ o.first.bytes.length ∧ o.first.bytes.take 99 ∈ o.tokens

/-- The purpose of the handler: the response line names one of the tokens. -/
def AnswersOffer (o : Offer) (written : List UInt8) : Prop :=
  ∃ t ∈ o.tokens, written = protocolName ++ t ++ crlf ++ crlf

/-! ### Cutting at the last comma -/

private theorem snprintf_eq_take (v : List UInt8) : snprintf 100 v = v.take 99 := rfl

private theorem accepted_of_not_mem {v : List UInt8} (h : COMMA ∉ v.take 99) : acceptedProtocol v = v.take 99 := by
  simp only [acceptedProtocol, snprintf_eq_take, strrchr_of_not_mem h]

private theorem accepted_of_last {v l u : List UInt8} (h : v.take 99 = l ++ COMMA :: u) (hu : COMMA ∉ u) :
    acceptedProtocol v = l := by
  simp only [acceptedProtocol, snprintf_eq_take, h, strrchr_append_cons hu]
  exact List.take_left

/-- With two commas among the first 99 bytes, the first one is sent. -/
private theorem comma_mem_accepted {v l u : List UInt8} (h : v.take 99 = l ++ COMMA :: u) (hu : COMMA ∈ u) :
    COMMA ∈ acceptedProtocol v := by
  obtain ⟨u₁, u₂, rfl, hlast⟩ := exists_last_of_mem hu
  have hcut : v.take 99 = (l ++ COMMA :: u₁) ++ COMMA :: u₂ := by
    rw [h, List.append_assoc, List.cons_append]
  rw [accepted_of_last hcut hlast]
  exact List.mem_append_right _ (List.mem_cons_self ..)

/-! ### The pieces of an offer -/

private theorem length_spaces (k : Nat) : (spaces k).length = k := List.length_replicate

private theorem comma_not_mem_spaces (k : Nat) : COMMA ∉ spaces k := by
  intro h
  exact absurd (List.eq_of_mem_replicate h) (by decide)

private theorem comma_not_mem_append {s u : List UInt8} (hs : COMMA ∉ s) (hu : COMMA ∉ u) : COMMA ∉ s ++ u := by
  intro h
  rcases List.mem_append.1 h with h | h
  · exact hs h
  · exact hu h

private theorem mem_tokens {o : Offer} {t : List UInt8} (h : t ∈ o.tokens) : COMMA ∉ t ∧ SPACE ∉ t := by
  rw [Offer.tokens, List.mem_cons, List.mem_map] at h
  rcases h with rfl | ⟨f, -, rfl⟩
  · exact ⟨o.first.no_comma, o.first.no_space⟩
  · exact ⟨f.token.no_comma, f.token.no_space⟩

private theorem first_mem_tokens (o : Offer) : o.first.bytes ∈ o.tokens := List.mem_cons_self ..

/-- Behind the first token and its comma: a second comma is among the first `k` bytes only if it stands there. -/
private theorem comma_mem_take_iff (f : Further) (rest : List Further) (k : Nat) :
    COMMA ∈ ((spaces f.behind ++ f.token.bytes) ++ rest.flatMap Further.text).take k ↔
      ∃ g ∈ rest.head?, f.behind + f.token.bytes.length + g.before < k := by
  have hpiece : COMMA ∉ spaces f.behind ++ f.token.bytes :=
    comma_not_mem_append (comma_not_mem_spaces _) f.token.no_comma
  cases rest with
  | nil =>
    rw [List.flatMap_nil, List.append_nil]
    constructor
    · intro h
      exact absurd (List.mem_of_mem_take h) hpiece
    · rintro ⟨g, hg, -⟩
      cases hg
  | cons g rest =>
    have hpiece' : COMMA ∉ spaces f.behind ++ f.token.bytes ++ spaces g.before :=
      comma_not_mem_append hpiece (comma_not_mem_spaces _)
    have hsplit : (spaces f.behind ++ f.token.bytes) ++ (g :: rest).flatMap Further.text =
        (spaces f.behind ++ f.token.bytes ++ spaces g.before) ++
          COMMA :: (spaces g.behind ++ g.token.bytes ++ rest.flatMap Further.text) := by
      simp only [List.flatMap_cons, Further.text, List.append_assoc, List.cons_append]
    rw [hsplit, mem_take_append_cons hpiece']
    simp only [List.length_append, length_spaces, List.head?_cons, Option.mem_def, Option.some.injEq, exists_eq_left']

/-! ### The answer -/

/-- A list with the first comma among the first 99 bytes. -/
private theorem accepted_mem_of_lt {o : Offer} {f : Further} {rest : List Further} (hrest : o.rest = f :: rest)
    (hlt : o.first.bytes.length + f.before < 99) :
    acceptedProtocol o.value ∈ o.tokens ↔
      f.before = 0 ∧ ∀ g ∈ rest.head?, 99 ≤ o.first.bytes.length + 1 + f.behind + f.token.bytes.length + g.before := by
  have hvalue : o.value = (o.first.bytes ++ spaces f.before) ++
      COMMA :: ((spaces f.behind ++ f.token.bytes) ++ rest.flatMap Further.text) := by
    simp only [Offer.value, hrest, List.flatMap_cons, Further.text, List.append_assoc, List.cons_append]
  have hlen : (o.first.bytes ++ spaces f.before).length = o.first.bytes.length + f.before := by
    rw [List.length_append, length_spaces]
  obtain ⟨d, hd⟩ : ∃ d, 99 = o.first.bytes.length + f.before + (d + 1) :=
    ⟨98 - (o.first.bytes.length + f.before), by omega⟩
  have htake : o.value.take 99 = (o.first.bytes ++ spaces f.before) ++
      COMMA :: ((spaces f.behind ++ f.token.bytes) ++ rest.flatMap Further.text).take d := by
    rw [hvalue, hd, ← hlen, List.take_length_add_append, List.take_succ_cons]
  by_cases hcomma : COMMA ∈ ((spaces f.behind ++ f.token.bytes) ++ rest.flatMap Further.text).take d
  · obtain ⟨g, hg, hlt'⟩ := (comma_mem_take_iff f rest d).1 hcomma
    constructor
    · intro hmem
      exact absurd (comma_mem_accepted htake hcomma) (mem_tokens hmem).1
    · rintro ⟨hzero, hfar⟩
      have := hfar g hg
      omega
  · rw [accepted_of_last htake hcomma]
    rw [comma_mem_take_iff] at hcomma
    constructor
    · intro hmem
      have hzero : f.before = 0 := by
        by_contra hne
        apply (mem_tokens hmem).2
        exact List.mem_append_right _ (List.mem_replicate.2 ⟨hne, rfl⟩)
      refine ⟨hzero, ?_⟩
      intro g hg
      by_contra hnear
      exact hcomma ⟨g, hg, by omega⟩
    · rintro ⟨hzero, -⟩
      rw [hzero]
      show o.first.bytes ++ [] ∈ o.tokens
      rw [List.append_nil]
      exact first_mem_tokens o

/-- A list with its first comma behind the first 99 bytes. -/
private theorem accepted_mem_of_ge {o : Offer} {f : Further} {rest : List Further} (hrest : o.rest = f :: rest)
    (hge : 99 ≤ o.first.bytes.length + f.before) :
    acceptedProtocol o.value ∈ o.tokens ↔ 99 ≤ o.first.bytes.length ∧ o.first.bytes.take 99 ∈ o.tokens := by
  have hvalue : o.value = (o.first.bytes ++ spaces f.before) ++
      COMMA :: ((spaces f.behind ++ f.token.bytes) ++ rest.flatMap Further.text) := by
    simp only [Offer.value, hrest, List.flatMap_cons, Further.text, List.append_assoc, List.cons_append]
  have htake : o.value.take 99 = (o.first.bytes ++ spaces f.before).take 99 := by
    rw [hvalue, List.take_append_of_le_length]
    rw [List.length_append, length_spaces]
    exact hge
  have hcomma : COMMA ∉ o.value.take 99 := by
    rw [htake]
    intro h
    exact comma_not_mem_append o.first.no_comma (comma_not_mem_spaces _) (List.mem_of_mem_take h)
  rw [accepted_of_not_mem hcomma, htake]
  by_cases hlong : 99 ≤ o.first.bytes.length
  · rw [List.take_append_of_le_length hlong]
    exact ⟨fun h => ⟨hlong, h⟩, fun h => h.2⟩
  · constructor
    · -- the 99 bytes end with a space
      intro hmem
      exfalso
      apply (mem_tokens hmem).2
      obtain ⟨k, hk⟩ : ∃ k, 99 = o.first.bytes.length + k := ⟨99 - o.first.bytes.length, by omega⟩
      have hspaces : (spaces f.before).take k = List.replicate k SPACE := by
        rw [spaces, List.take_replicate, Nat.min_eq_left (by omega)]
      rw [hk, List.take_length_add_append, hspaces]
      exact List.mem_append_right _ (List.mem_replicate.2 ⟨by omega, rfl⟩)
    · rintro ⟨h, -⟩
      exact absurd h hlong

theorem acceptedProtocol_mem_iff (o : Offer) : acceptedProtocol o.value ∈ o.tokens ↔ o.Acceptable := by
  unfold Offer.Acceptable
  split
  · rename_i hrest
    have hvalue : o.value = o.first.bytes := by
      rw [Offer.value, hrest]
      exact List.append_nil _
    have htokens : o.tokens = [o.first.bytes] := by
      rw [Offer.tokens, hrest]
      rfl
    have hcomma : COMMA ∉ o.value.take 99 := by
      rw [hvalue]
      exact fun h => o.first.no_comma (List.mem_of_mem_take h)
    rw [accepted_of_not_mem hcomma, hvalue, htokens, List.mem_singleton]
    exact List.take_eq_self_iff _
  · rename_i f rest hrest
    split
    · rename_i hlt
      exact accepted_mem_of_lt hrest hlt
    · rename_i hge
      exact accepted_mem_of_ge hrest (Nat.not_lt.1 hge)

/-- The response line names one of the tokens of the offer if and only if the offer has one of the acceptable forms. -/
theorem readyHandler_offered_iff {ri : RequestInfo} {prot : CStr} {o : Offer}
    (hprot : mgGetHeader ri secWebSocketProtocol = some prot) (hvalue : prot.bytes = o.value) :
    AnswersOffer o (websocketReadyHandler ri) ↔ o.Acceptable := by
  have hwritten : websocketReadyHandler ri = protocolName ++ acceptedProtocol o.value ++ crlf ++ crlf := by
    rw [websocketReadyHandler_eq, protocolLines, if_pos (show serverCallbacks.websocketReady.isSome = true from rfl),
      hprot, Option.toList_some, List.map_singleton, block, List.flatMap_singleton, hvalue]
  rw [← acceptedProtocol_mem_iff, AnswersOffer, hwritten]
  constructor
  · rintro ⟨t, ht, heq⟩
    rw [List.append_cancel_right_eq, List.append_cancel_right_eq, List.append_cancel_left_eq] at heq
    rw [heq]
    exact ht
  · intro hmem
    exact ⟨_, hmem, rfl⟩

def Token.of (text : String) (hne : ascii text.toList ≠ []) (hcomma : COMMA ∉ ascii text.toList)
    (hspace : SPACE ∉ ascii text.toList) : Token := ⟨ascii text.toList, hne, hcomma, hspace⟩

/-- The offer `chat, superchat`. -/
def chatOffer : Offer where
  first := Token.of "chat" (by decide) (by decide) (by decide)
  rest := [⟨0, 1, Token.of "superchat" (by decide) (by decide) (by decide)⟩]

theorem readyHandler_offered_iff_chat : AnswersOffer chatOffer (websocketReadyHandler chatRequest) := by
  have hprot : mgGetHeader chatRequest secWebSocketProtocol = some (cstr "chat, superchat" (by decide)) := by
    decide +kernel
  refine (readyHandler_offered_iff hprot (by decide)).2 ⟨rfl, ?_⟩
  intro g hg
  cases hg

/-- The offer `a,b,c`. -/
def abcOffer : Offer where
  first := Token.of "a" (by decide) (by decide) (by decide)
  rest := [⟨0, 0, Token.of "b" (by decide) (by decide) (by decide)⟩,
    ⟨0, 0, Token.of "c" (by decide) (by decide) (by decide)⟩]

def abcRequest : RequestInfo :=
  ⟨cstr "/" (by decide), [(⟨secWebSocketProtocol, by decide⟩, cstr "a,b,c" (by decide))]⟩

/-- The answer to the offer `a,b,c` is `a,b`, which is not one of its tokens. -/
theorem not_answersOffer_abc :
    mgGetHeader abcRequest secWebSocketProtocol = some (cstr "a,b,c" (by decide)) ∧
      abcOffer.value = ascii "a,b,c".toList ∧
      websocketReadyHandler abcRequest = protocolName ++ ascii "a,b".toList ++ crlf ++ crlf ∧
      ¬ AnswersOffer abcOffer (websocketReadyHandler abcRequest) := by
  have hwritten : websocketReadyHandler abcRequest = protocolName ++ ascii "a,b".toList ++ crlf ++ crlf := by
    decide +kernel
  refine ⟨by decide +kernel, by decide, hwritten, ?_⟩
  rintro ⟨t, ht, heq⟩
  rw [hwritten, List.append_cancel_right_eq, List.append_cancel_right_eq, List.append_cancel_left_eq] at heq
  have hcomma := (mem_tokens ht).1
  rw [← heq] at hcomma
  exact hcomma (by decide)

end Tinyweb

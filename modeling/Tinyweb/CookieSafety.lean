import Tinyweb.CookieScan

/-!
# The array of `cgi-getcookie`

`getcookieMain` fails at the first access outside its array.  That happens only when the input fills the array, since
the terminator is then stored behind the last element (`getcookieMain_ne_fault_iff`).

From a position of a terminated text, `scan_cookie` moves on by two bytes at least and not beyond the terminator, and
it writes only between the two positions.  So the loop of `main` meets the cookies of the text as it was read, one by
one, and ends after at most half as many iterations as there are bytes (`scanCookie_progress`).
-/

namespace Tinyweb

open Clib

variable {n : Nat}

/-! ### Accesses -/

private theorem getcookieMain_of_full {stdin : List UInt8} (h : 4096 ≤ stdin.length) (prog key : CStr)
    (buf : Mem 4096) : getcookieMain [prog, key] stdin buf = .fault := by
  have hlen : (stdin.take 4096).length = 4096 := by
    rw [List.length_take]
    omega
  have hstore := Mem.store_overlay buf (stdin.take 4096) NUL
  rw [hlen, if_neg (Nat.lt_irrefl _)] at hstore
  simp only [getcookieMain, Mem.write, hlen, Nat.le_refl, ↓reduceIte, hstore]
  rfl

/-- The program stays inside its array if and only if it gets no key or the input leaves room for the terminator. -/
theorem getcookieMain_ne_fault_iff (argv : List CStr) (stdin : List UInt8) (buf : Mem 4096) :
    getcookieMain argv stdin buf ≠ .fault ↔ ∀ prog key, argv = [prog, key] → stdin.length < 4096 := by
  constructor
  · rintro h prog key rfl
    by_contra hlen
    exact h (getcookieMain_of_full (Nat.not_lt.1 hlen) prog key buf)
  · intro h
    rcases argv with _ | ⟨prog, _ | ⟨key, _ | ⟨arg, args⟩⟩⟩
    · exact nofun
    · exact nofun
    · rw [getcookieMain_eq prog key (h prog key rfl)]
      exact nofun
    · exact nofun

/-- An input of 4096 bytes: the terminator is stored behind the end of the array. -/
theorem getcookieMain_full_read :
    getcookieMain [⟨[], by decide⟩, ⟨ascii ['k'], by decide⟩] (List.replicate 4096 97) (Mem.fill 4096 0) = .fault :=
  getcookieMain_of_full List.length_replicate.ge _ _ _

/-! ### Progress -/

/-- The items `main` sees in an iteration, before it compares the name. -/
def itemsAt (s : Mem n × Nat) : Option Cookie := do
  match ← scanCookie s.1 s.2 with
  | (_, none) => none
  | (m, some (_, items)) => return ⟨← m.cstr items.name, ← m.cstr items.value⟩

/-- The cookies up to the first one with the name `key`, which ends the loop of `main`. -/
def upTo (key : List UInt8) : List Cookie → List Cookie
  | [] => []
  | c :: cs => if c.name = key then [c] else c :: upTo key cs

private theorem visited_getcookie {junk : List UInt8} (field : CStr) (s : List UInt8) :
    ∀ {m : Mem n} {pre : List UInt8} {fuel : Nat}, m.cells = pre ++ (s ++ 0 :: junk) → NUL ∉ s → s.length / 2 < fuel →
      (visited (getcookieBody field) fuel (m, pre.length)).filterMap itemsAt = upTo field.bytes (cookies s) := by
  induction s using cookies.induct with
  | case1 s h =>
    intro m pre fuel hm hs hfuel
    obtain ⟨fuel, rfl⟩ : ∃ f, fuel = f + 1 := ⟨fuel - 1, by omega⟩
    obtain ⟨m', hscan⟩ := scanCookie_none hm hs h
    have hexit : getcookieBody field (m, pre.length) = some (.exit ([], -1)) := by simp [getcookieBody, hscan]
    have hitems : itemsAt (m, pre.length) = none := by simp [itemsAt, hscan]
    rw [visited_exit hexit, cookies_of_none h, List.filterMap_cons_none hitems]
    rfl
  | case2 s c rest h ih =>
    intro m pre fuel hm hs hfuel
    obtain ⟨fuel, rfl⟩ : ∃ f, fuel = f + 1 := ⟨fuel - 1, by omega⟩
    obtain ⟨m', pre', items, hscan, hcells, hname, hvalue, -, -⟩ := scanCookie_some hm hs h
    have hcmp := strcmp_eq_zero_iff (Mem.nul_not_mem_of_cstr hname) field.nul_free
    have hitems : itemsAt (m, pre.length) = some c := by simp [itemsAt, hscan, hname, hvalue]
    rw [cookies_of_some h, upTo]
    by_cases hkey : c.name = field.bytes
    · have hexit : getcookieBody field (m, pre.length) = some (.exit (c.value, 0)) := by
        simp [getcookieBody, hscan, hname, hvalue, hcmp.2 hkey]
      rw [visited_exit hexit, if_pos hkey, List.filterMap_cons_some hitems]
      rfl
    · have hnext : getcookieBody field (m, pre.length) = some (.next (m', pre'.length)) := by
        simp [getcookieBody, hscan, hname, mt hcmp.1 hkey]
      have hrest : NUL ∉ rest := fun hmem => hs ((parseCookie_suffix h).subset hmem)
      have hshort := two_add_length_parseCookie h
      rw [visited_next hnext, if_neg hkey, List.filterMap_cons_some hitems, ih hcells hrest (by omega)]

private theorem length_upTo_le (key : List UInt8) (cs : List Cookie) : (upTo key cs).length ≤ cs.length := by
  induction cs with
  | nil => exact Nat.le_refl _
  | cons c cs ih =>
    rw [upTo]
    split
    · simp
    · simpa using ih

private theorem length_cookies_le (s : List UInt8) : 2 * (cookies s).length ≤ s.length := by
  induction s using cookies.induct with
  | case1 s h =>
    rw [cookies_of_none h]
    exact Nat.zero_le _
  | case2 s c rest h ih =>
    have hshort := two_add_length_parseCookie h
    rw [cookies_of_some h, List.length_cons]
    omega

/-- What one call of `scan_cookie` leaves alone, when it returns a position. -/
private theorem scanCookie_frame {m m' : Mem n} {pre s junk : List UInt8} {q : Nat} {items : Items}
    (hm : m.cells = pre ++ (s ++ 0 :: junk)) (hs : NUL ∉ s)
    (h : scanCookie m pre.length = some (m', some (q, items))) :
    pre.length + 2 ≤ q ∧ q ≤ pre.length + s.length ∧ m'.cells.drop q = m.cells.drop q ∧
      m'.cells.take pre.length = m.cells.take pre.length := by
  cases hparse : parseCookie s with
  | none =>
    obtain ⟨m₁, hscan⟩ := scanCookie_none hm hs hparse
    rw [hscan] at h
    cases h
  | some r =>
    obtain ⟨c, rest⟩ := r
    obtain ⟨m₁, pre', items', hscan, hcells, -, -, hpre, hlen⟩ := scanCookie_some hm hs hparse
    rw [hscan] at h
    cases h
    have hshort := two_add_length_parseCookie hparse
    refine ⟨by omega, by omega, ?_, ?_⟩
    · obtain ⟨u, rfl⟩ := parseCookie_suffix hparse
      have hu : pre'.length = (pre ++ u).length := by
        rw [List.length_append] at hlen ⊢
        omega
      have hm' : m.cells = (pre ++ u) ++ (rest ++ 0 :: junk) := by
        rw [hm]
        simp only [List.append_assoc]
      rw [hcells, List.drop_left, hm', hu, List.drop_left]
    · obtain ⟨v, rfl⟩ := hpre
      rw [hcells, hm, List.append_assoc, List.take_left, List.take_left]

/-- From position `pre.length` of an array that holds the text `s` and a terminator there: a position returned by
`scan_cookie` is two bytes further at least and not behind the terminator, and the bytes from it on and those before the
start are unchanged.  The loop of `main` ends within `s.length / 2` iterations and one more call of `scan_cookie`, with
the items of the text `s` up to the one it looks for. -/
theorem scanCookie_progress {m : Mem n} {pre s junk : List UInt8} (hm : m.cells = pre ++ (s ++ 0 :: junk))
    (hs : NUL ∉ s) (field : CStr) :
    (∀ m' q items, scanCookie m pre.length = some (m', some (q, items)) →
      pre.length + 2 ≤ q ∧ q ≤ pre.length + s.length ∧ m'.cells.drop q = m.cells.drop q ∧
        m'.cells.take pre.length = m.cells.take pre.length) ∧
    (∀ fuel, s.length / 2 < fuel →
      (∃ r, loop (getcookieBody field) fuel (m, pre.length) = .ret r) ∧
      (visited (getcookieBody field) fuel (m, pre.length)).filterMap itemsAt = upTo field.bytes (cookies s)) ∧
    (upTo field.bytes (cookies s)).length ≤ s.length / 2 := by
  refine ⟨fun m' q items h => scanCookie_frame hm hs h, ?_, ?_⟩
  · intro fuel hfuel
    exact ⟨⟨_, loop_getcookie field s hm hs hfuel⟩, visited_getcookie field s hm hs hfuel⟩
  · have h1 := length_upTo_le field.bytes (cookies s)
    have h2 := length_cookies_le s
    omega

/-- The text `k=` behind one overwritten byte: the item ends at the terminator. -/
theorem scanCookie_progress_end :
    (⟨[NUL, 107, EQUALS, NUL], rfl⟩ : Mem 4).cells = [NUL] ++ (ascii ['k', '='] ++ 0 :: []) ∧
      (visited (getcookieBody ⟨ascii ['k'], by decide⟩) 2 ((⟨[NUL, 107, EQUALS, NUL], rfl⟩ : Mem 4), 1)).filterMap
        itemsAt = upTo (ascii ['k']) (cookies (ascii ['k', '='])) := by
  have hcells : (⟨[NUL, 107, EQUALS, NUL], rfl⟩ : Mem 4).cells = [NUL] ++ (ascii ['k', '='] ++ 0 :: []) := rfl
  obtain ⟨-, hloop, -⟩ := scanCookie_progress hcells (by decide) ⟨ascii ['k'], by decide⟩
  exact ⟨hcells, (hloop 2 (by decide)).2⟩

end Tinyweb

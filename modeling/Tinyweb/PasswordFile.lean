import Tinyweb.ConfigFile
import Tinyweb.HttpRequest
import Tinyweb.Md5
import Tinyweb.RequestUri

/-!
# Password files (`mongoose.c`)

A password file has a line `user:domain:ha1` for each user, with the MD5 digest `ha1` of `user:domain:password`.
`authorize` takes the first line for the user and the domain, reading lines of at most 255 bytes;
`mg_modify_passwords_file` copies the file line by line and replaces, adds or removes the lines of one user.

Read as a map from users and domains to digests, a file whose lines fit is changed at the given user only
(`exists_modified`, `storedHa1_modifyAll`).  If the last line has no end, the line of a new user is glued to it: neither
of the two users can log in any more (`storedHa1_unterminated`).
-/

namespace Tinyweb

open Clib

/-! ### Reading a line -/

/-- `sscanf(line, "%[^:]:%[^:]..", user, domain)`, if both conversions succeed, and the text behind them. -/
def scanUser (line : List UInt8) : Option (List UInt8 × List UInt8 × List UInt8) :=
  let user := line.takeWhile (· != COLON)
  match line.dropWhile (· != COLON) with
  | [] => none
  | _ :: s =>
    let domain := s.takeWhile (· != COLON)
    if user = [] ∨ domain = [] then none else some (user, domain, s.dropWhile (· != COLON))

/-- `sscanf(line, "%[^:]:%[^:]:%s", user, domain, ha1)`, if all conversions succeed. -/
def scanEntry (line : List UInt8) : Option (List UInt8 × List UInt8 × List UInt8) :=
  match scanUser line with
  | some (user, domain, _ :: s) =>
    let ha1 := (s.dropWhile isspace).takeWhile (!isspace ·)
    if ha1 = [] then none else some (user, domain, ha1)
  | _ => none

/-- The loop of `authorize`: the digest for the user. -/
def findHa1 (user domain : List UInt8) : Nat → List UInt8 → Option (List UInt8)
  | 0, _ => none
  | fuel + 1, file =>
    match fgets 256 file with
    | none => none
    | some (line, file) =>
      match scanEntry (textOf line) with
      | some (fUser, fDomain, ha1) =>
        if strcmp user fUser = 0 ∧ strcmp domain fDomain = 0 then some ha1 else findHa1 user domain fuel file
      | none => findHa1 user domain fuel file

/-- A line has at least one byte. -/
def storedHa1 (file user domain : List UInt8) : Option (List UInt8) := findHa1 user domain (file.length + 1) file

/-! ### Changing a file -/

/-- The digest of a password; the memory of the MD5 context does not matter. -/
def ha1Of (user domain pass : List UInt8) : List UInt8 :=
  mgMd5 (List.replicate 64 0) [user, [COLON], domain, [COLON], pass]

/-- `fprintf(fp2, "%s:%s:%s\n", user, domain, ha1)` without the end of the line. -/
def userLine (user domain pass : List UInt8) : List UInt8 :=
  user ++ COLON :: (domain ++ COLON :: ha1Of user domain pass)

/-- The loop of `mg_modify_passwords_file`: what is written, and whether the user was found. -/
def copyLines (user domain : List UInt8) (pass : Option (List UInt8)) : Nat → List UInt8 → List UInt8 × Bool
  | 0, _ => ([], false)
  | fuel + 1, file =>
    match fgets 512 file with
    | none => ([], false)
    | some (line, file) =>
      let (out, found) := copyLines user domain pass fuel file
      match scanUser (textOf line) with
      | none => (out, found)
      | some (u, d, _) =>
        if strcmp u user = 0 ∧ strcmp d domain = 0 then
          match pass with
          | some pass => (userLine user domain pass ++ LF :: out, true)
          | none => (out, true)
        else (textOf line ++ out, found)

/-- The file after `mg_modify_passwords_file`.  An empty password removes the user. -/
def mgModifyPasswordsFile (file domain user : List UInt8) (pass : Option (List UInt8)) : List UInt8 :=
  let pass := if pass = some [] then none else pass
  let (out, found) := copyLines user domain pass (file.length + 1) file
  match pass, found with
  | some pass, false => out ++ userLine user domain pass ++ [LF]
  | _, _ => out

/-! ### Files of whole lines -/

/-- A file that consists of lines which both functions read as a whole. -/
structure PasswordLines where
  lines : List (List UInt8)
  fits : ∀ l ∈ lines, LF ∉ l ∧ NUL ∉ l ∧ l.length ≤ 254

def PasswordLines.bytes (f : PasswordLines) : List UInt8 := f.lines.flatMap (· ++ [LF])

/-- A user or a domain that can stand in a line. -/
structure Field where
  bytes : List UInt8
  ne_nil : bytes ≠ []
  clean : ∀ c ∈ bytes, c ≠ COLON ∧ c ≠ LF ∧ c ≠ NUL

namespace Field

variable (f : Field)

theorem colon_not_mem : COLON ∉ f.bytes := fun h => (f.clean _ h).1 rfl
theorem lf_not_mem : LF ∉ f.bytes := fun h => (f.clean _ h).2.1 rfl
theorem nul_not_mem : NUL ∉ f.bytes := fun h => (f.clean _ h).2.2 rfl

end Field

/-- The digest in a line without its end, if it is the line of the user. -/
def ha1In (user domain l : List UInt8) : Option (List UInt8) :=
  match scanEntry (l ++ [LF]) with
  | some (fUser, fDomain, ha1) => if fUser = user ∧ fDomain = domain then some ha1 else none
  | none => none

/-- What is written for a line. -/
def editLine (user domain : List UInt8) (pass : Option (List UInt8)) (l : List UInt8) : List (List UInt8) :=
  match scanUser (l ++ [LF]) with
  | none => []
  | some (u, d, _) =>
    if u = user ∧ d = domain then (pass.map (userLine user domain)).toList else [l]

/-- The line of the user, as `mg_modify_passwords_file` finds it. -/
def isUserLine (user domain l : List UInt8) : Bool :=
  match scanUser (l ++ [LF]) with
  | some (u, d, _) => u = user ∧ d = domain
  | none => false

section

variable {l u d rest h : List UInt8}

private theorem scanUser_eq (h : scanUser l = some (u, d, rest)) :
    u ≠ [] ∧ d ≠ [] ∧ COLON ∉ u ∧ COLON ∉ d ∧ l = u ++ COLON :: (d ++ rest) := by
  unfold scanUser at h
  dsimp only at h
  split at h
  next => cases h
  next c s hdrop =>
    split at h
    next => cases h
    next hne =>
      rw [not_or] at hne
      cases h
      have hcolon := dropWhile_ne_cons hdrop
      subst hcolon
      refine ⟨hne.1, hne.2, not_mem_takeWhile_ne _ _, not_mem_takeWhile_ne _ _, ?_⟩
      rw [List.takeWhile_append_dropWhile, ← hdrop, List.takeWhile_append_dropWhile]

private theorem scanEntry_eq (hscan : scanEntry l = some (u, d, h)) : ∃ rest, scanUser l = some (u, d, rest) := by
  unfold scanEntry at hscan
  split at hscan
  next user domain c s heq =>
    dsimp only at hscan
    split at hscan
    next => cases hscan
    next =>
      cases hscan
      exact ⟨_, heq⟩
  next => cases hscan

private theorem nul_not_mem_of_scanUser (hl : NUL ∉ l) (h : scanUser l = some (u, d, rest)) : NUL ∉ u ∧ NUL ∉ d := by
  obtain ⟨-, -, -, -, rfl⟩ := scanUser_eq h
  simp only [List.mem_append, List.mem_cons, not_or] at hl
  exact ⟨hl.1, hl.2.2.1⟩

private theorem textOf_of_not_mem {s : List UInt8} (h : NUL ∉ s) : textOf s = s := (span_ne_self h).1

private theorem nul_not_mem_line (hl : NUL ∉ l) : NUL ∉ l ++ [LF] := by
  simp only [List.mem_append, List.mem_singleton, not_or]
  exact ⟨hl, by decide⟩

end

private theorem length_le_bytes (lines : List (List UInt8)) : lines.length ≤ (lines.flatMap (· ++ [LF])).length := by
  induction lines with
  | nil => exact Nat.le_refl 0
  | cons l lines ih =>
    rw [List.flatMap_cons, List.length_append, List.length_append, List.length_cons, List.length_singleton]
    omega

/-- `authorize` goes through the lines. -/
theorem storedHa1_bytes (f : PasswordLines) {user domain : List UInt8} (hu : NUL ∉ user) (hd : NUL ∉ domain) :
    storedHa1 f.bytes user domain = f.lines.findSome? (ha1In user domain) := by
  have hloop : ∀ (lines : List (List UInt8)) (fuel : Nat), (∀ l ∈ lines, LF ∉ l ∧ NUL ∉ l ∧ l.length ≤ 254) →
      lines.length < fuel → findHa1 user domain fuel (lines.flatMap (· ++ [LF])) =
        lines.findSome? (ha1In user domain) := by
    intro lines
    induction lines with
    | nil =>
      intro fuel _ hfuel
      cases fuel with
      | zero => omega
      | succ fuel => rfl
    | cons l lines ih =>
      intro fuel hfits hfuel
      rw [List.forall_mem_cons] at hfits
      obtain ⟨⟨hlf, hnul, hlen⟩, hfits⟩ := hfits
      obtain ⟨fuel, rfl⟩ : ∃ k, fuel = k + 1 := ⟨fuel - 1, by omega⟩
      have hrest := ih fuel hfits (by rw [List.length_cons] at hfuel; omega)
      have hnul' := nul_not_mem_line hnul
      have hfgets : fgets 256 ((l :: lines).flatMap (· ++ [LF])) = some (l ++ [LF], lines.flatMap (· ++ [LF])) := by
        rw [List.flatMap_cons, List.append_assoc]
        exact fgets_line hlf (by omega) _
      rw [findHa1, hfgets, List.findSome?_cons, ha1In]
      dsimp only
      rw [textOf_of_not_mem hnul', hrest]
      cases hentry : scanEntry (l ++ [LF]) with
      | none => rfl
      | some entry =>
        obtain ⟨u, d, h⟩ := entry
        obtain ⟨s, hscan⟩ := scanEntry_eq hentry
        obtain ⟨hu', hd'⟩ := nul_not_mem_of_scanUser hnul' hscan
        have hiff : strcmp user u = 0 ∧ strcmp domain d = 0 ↔ u = user ∧ d = domain := by
          rw [strcmp_eq_zero_iff hu hu', strcmp_eq_zero_iff hd hd', eq_comm, @eq_comm _ domain]
        by_cases hsame : u = user ∧ d = domain
        · simp only [if_pos hsame, if_pos (hiff.2 hsame)]
        · simp only [if_neg hsame, if_neg (mt hiff.1 hsame)]
  exact hloop f.lines _ f.fits (Nat.lt_succ_of_le (length_le_bytes f.lines))

/-- `mg_modify_passwords_file` goes through the lines, too, and then through what follows them. -/
private theorem copyLines_append {user domain : List UInt8} (hu : NUL ∉ user) (hd : NUL ∉ domain)
    (pass : Option (List UInt8)) (fuel : Nat) (tail : List UInt8) (lines : List (List UInt8))
    (hfits : ∀ l ∈ lines, LF ∉ l ∧ NUL ∉ l ∧ l.length ≤ 254) :
    copyLines user domain pass (lines.length + fuel) (lines.flatMap (· ++ [LF]) ++ tail) =
      ((lines.flatMap (editLine user domain pass)).flatMap (· ++ [LF]) ++ (copyLines user domain pass fuel tail).1,
        lines.any (isUserLine user domain) || (copyLines user domain pass fuel tail).2) := by
  induction lines with
  | nil => simp
  | cons l lines ih =>
    rw [List.forall_mem_cons] at hfits
    obtain ⟨⟨hlf, hnul, hlen⟩, hfits⟩ := hfits
    have hnul' := nul_not_mem_line hnul
    have hfgets : fgets 512 ((l :: lines).flatMap (· ++ [LF]) ++ tail) =
        some (l ++ [LF], lines.flatMap (· ++ [LF]) ++ tail) := by
      rw [List.flatMap_cons, List.append_assoc, List.append_assoc]
      exact fgets_line hlf (by omega) _
    rw [List.length_cons, Nat.add_right_comm, copyLines, hfgets, List.flatMap_cons, List.flatMap_append, List.any_cons,
      editLine, isUserLine]
    dsimp only
    rw [textOf_of_not_mem hnul', ih hfits]
    cases hscan : scanUser (l ++ [LF]) with
    | none => rfl
    | some entry =>
      obtain ⟨u, d, s⟩ := entry
      obtain ⟨hu', hd'⟩ := nul_not_mem_of_scanUser hnul' hscan
      have hiff : strcmp u user = 0 ∧ strcmp d domain = 0 ↔ u = user ∧ d = domain := by
        rw [strcmp_eq_zero_iff hu' hu, strcmp_eq_zero_iff hd' hd]
      by_cases hsame : u = user ∧ d = domain
      · simp only [if_pos hsame, if_pos (hiff.2 hsame), decide_eq_true hsame, Bool.true_or]
        cases pass <;> simp
      · simp only [if_neg hsame, if_neg (mt hiff.1 hsame), decide_eq_false hsame, Bool.false_or]
        simp

/-! ### The line of a user -/

private theorem hexDigit_fin : ∀ v : Fin 16, isspace (hexDigit v) = false ∧ hexDigit v ≠ COLON ∧ hexDigit v ≠ LF ∧
    hexDigit v ≠ NUL := by
  decide

theorem mem_mgMd5 {stack : List UInt8} {strings : List (List UInt8)} {c : UInt8} (h : c ∈ mgMd5 stack strings) :
    isspace c = false ∧ c ≠ COLON ∧ c ≠ LF ∧ c ≠ NUL := by
  obtain ⟨b, -, hc⟩ := List.mem_flatMap.1 h
  have hb : b.toNat < 256 := UInt8.toNat_lt_size b
  simp only [List.mem_cons, List.not_mem_nil, or_false] at hc
  rcases hc with rfl | rfl
  · exact hexDigit_fin ⟨b.toNat / 16, by omega⟩
  · exact hexDigit_fin ⟨b.toNat % 16, by omega⟩

theorem length_mgMd5 (stack : List UInt8) (strings : List (List UInt8)) : (mgMd5 stack strings).length = 32 := by
  have hbin : ∀ bytes : List UInt8, (bin2str bytes).length = 2 * bytes.length := by
    intro bytes
    induction bytes with
    | nil => rfl
    | cons b bytes ih => rw [bin2str, List.flatMap_cons, List.length_append, ← bin2str, ih]; simp; omega
  rw [mgMd5, hbin]
  simp only [md5Final, littleEndian, List.length_append, List.length_cons, List.length_nil]

variable (user domain : Field) (pass : List UInt8)

private theorem scanUser_append {u d : List UInt8} (hu : u ≠ []) (hd : d ≠ []) (hu' : COLON ∉ u) (hd' : COLON ∉ d)
    (rest : List UInt8) : scanUser (u ++ COLON :: (d ++ COLON :: rest)) = some (u, d, COLON :: rest) := by
  obtain ⟨htake, hdrop⟩ := span_ne hu' (d ++ COLON :: rest)
  obtain ⟨htake', hdrop'⟩ := span_ne hd' rest
  rw [scanUser, htake, hdrop]
  dsimp only
  rw [htake', hdrop', if_neg (not_or.2 ⟨hu, hd⟩)]

/-- A digest goes on up to the first blank. -/
private theorem scanEntry_glued {u d h t : List UInt8} (hu : u ≠ []) (hd : d ≠ []) (hu' : COLON ∉ u) (hd' : COLON ∉ d)
    (hne : h ≠ []) (hh : ∀ c ∈ h, isspace c = false) :
    scanEntry (u ++ COLON :: (d ++ COLON :: h) ++ t ++ [LF]) = some (u, d, (h ++ t).takeWhile (!isspace ·)) := by
  have hassoc : u ++ COLON :: (d ++ COLON :: h) ++ t ++ [LF] = u ++ COLON :: (d ++ COLON :: (h ++ t ++ [LF])) := by simp
  rw [hassoc, scanEntry, scanUser_append hu hd hu' hd']
  dsimp only
  cases h with
  | nil => exact absurd rfl hne
  | cons c h =>
    have hc := hh c List.mem_cons_self
    have hword : ((c :: h ++ t ++ [LF]).dropWhile isspace).takeWhile (!isspace ·) =
        (c :: h ++ t).takeWhile (!isspace ·) := by
      rw [List.cons_append, List.cons_append, List.dropWhile_cons_of_neg (by simp [hc]), ← List.cons_append,
        ← List.cons_append, List.takeWhile_append]
      split
      next hall =>
        rw [(List.takeWhile_prefix _).eq_of_length hall]
        exact List.append_nil _
      next => rfl
    rw [hword, if_neg (by simp [hc])]

theorem scanEntry_userLine : scanEntry (userLine user.bytes domain.bytes pass ++ [LF]) =
    some (user.bytes, domain.bytes, ha1Of user.bytes domain.bytes pass) := by
  have hne : ha1Of user.bytes domain.bytes pass ≠ [] := List.ne_nil_of_length_pos (by rw [ha1Of, length_mgMd5]; decide)
  have hword : (ha1Of user.bytes domain.bytes pass).takeWhile (!isspace ·) = ha1Of user.bytes domain.bytes pass :=
    List.takeWhile_eq_self_iff.2 fun c hc => by rw [(mem_mgMd5 hc).1]; rfl
  have h := @scanEntry_glued _ _ _ [] user.ne_nil domain.ne_nil user.colon_not_mem domain.colon_not_mem hne
    fun c hc => (mem_mgMd5 hc).1
  rwa [List.append_nil, List.append_nil, hword] at h

/-- The new line fits if the names are not too long. -/
theorem userLine_fits (hlen : user.bytes.length + domain.bytes.length ≤ 220) :
    LF ∉ userLine user.bytes domain.bytes pass ∧ NUL ∉ userLine user.bytes domain.bytes pass ∧
      (userLine user.bytes domain.bytes pass).length ≤ 254 := by
  unfold userLine
  simp only [List.mem_append, List.mem_cons, not_or, List.length_append, List.length_cons, ha1Of, length_mgMd5]
  exact ⟨⟨user.lf_not_mem, by decide, domain.lf_not_mem, by decide, fun h => (mem_mgMd5 h).2.2.1 rfl⟩,
    ⟨user.nul_not_mem, by decide, domain.nul_not_mem, by decide, fun h => (mem_mgMd5 h).2.2.2 rfl⟩, by omega⟩

/-! ### The file as a map -/

/-- A line with a digest is the line of a user for both functions. -/
private theorem isUserLine_of_ha1In {u d l : List UInt8} {h : List UInt8} (hin : ha1In u d l = some h) :
    isUserLine u d l = true := by
  unfold ha1In at hin
  split at hin
  next fUser fDomain ha1 hentry =>
    split at hin
    next hsame =>
      obtain ⟨rest, hscan⟩ := scanEntry_eq hentry
      simp only [isUserLine, hscan]
      exact decide_eq_true hsame
    next => cases hin
  next => cases hin

private theorem ha1In_userLine (u d : List UInt8) : ha1In u d (userLine user.bytes domain.bytes pass) =
    if user.bytes = u ∧ domain.bytes = d then some (ha1Of user.bytes domain.bytes pass) else none := by
  unfold ha1In
  rw [scanEntry_userLine]

variable {user domain pass} in
private theorem editLine_of_isUserLine {p : Option (List UInt8)} {l : List UInt8}
    (h : isUserLine user.bytes domain.bytes l = true) :
    editLine user.bytes domain.bytes p l = (p.map (userLine user.bytes domain.bytes)).toList := by
  unfold isUserLine at h
  unfold editLine
  split at h
  next u d rest hscan =>
    rw [hscan]
    exact if_pos (of_decide_eq_true h)
  next => cases h

variable {user domain pass} in
private theorem editLine_of_not_isUserLine {p : Option (List UInt8)} {l : List UInt8}
    (h : isUserLine user.bytes domain.bytes l = false) :
    editLine user.bytes domain.bytes p l = [l] ∨
      (editLine user.bytes domain.bytes p l = [] ∧ ∀ u d, ha1In u d l = none) := by
  unfold isUserLine at h
  unfold editLine
  split at h
  next u d rest hscan =>
    rw [hscan]
    exact Or.inl (if_neg (of_decide_eq_false h))
  next hscan =>
    rw [hscan]
    refine Or.inr ⟨rfl, fun u d => ?_⟩
    cases hin : ha1In u d l with
    | none => rfl
    | some ha1 =>
      have := isUserLine_of_ha1In hin
      rw [isUserLine, hscan] at this
      cases this

/-- Another user's digest is found in what is written for a line exactly if it is in the line. -/
private theorem findSome?_editLine_other {u d : List UInt8} (hne : (u, d) ≠ (user.bytes, domain.bytes))
    (p : Option (List UInt8)) (l : List UInt8) :
    (editLine user.bytes domain.bytes p l).findSome? (ha1In u d) = ha1In u d l := by
  have hother : ¬ (user.bytes = u ∧ domain.bytes = d) := by
    rintro ⟨rfl, rfl⟩
    exact hne rfl
  cases hline : isUserLine user.bytes domain.bytes l with
  | true =>
    -- the line of the user has no digest of the other one
    have hnone : ha1In u d l = none := by
      unfold isUserLine at hline
      unfold ha1In
      cases hentry : scanEntry (l ++ [LF]) with
      | none => rfl
      | some entry =>
        obtain ⟨fUser, fDomain, ha1⟩ := entry
        obtain ⟨rest, hscan⟩ := scanEntry_eq hentry
        rw [hscan] at hline
        have hsame : fUser = user.bytes ∧ fDomain = domain.bytes := of_decide_eq_true hline
        refine if_neg ?_
        rintro ⟨rfl, rfl⟩
        exact hother ⟨hsame.1.symm, hsame.2.symm⟩
    rw [editLine_of_isUserLine hline, hnone]
    cases p with
    | none => rfl
    | some pass => simp [ha1In_userLine, hother]
  | false =>
    rcases editLine_of_not_isUserLine hline with hkept | ⟨hdropped, hnone⟩
    · rw [hkept, List.findSome?_cons]
      cases ha1In u d l <;> rfl
    · rw [hdropped, hnone]
      rfl

/-- The user's digest is found in what is written for a line exactly if it is the line of the user. -/
private theorem findSome?_editLine_self (p : Option (List UInt8)) (l : List UInt8) :
    (editLine user.bytes domain.bytes p l).findSome? (ha1In user.bytes domain.bytes) =
      if isUserLine user.bytes domain.bytes l then p.map (ha1Of user.bytes domain.bytes) else none := by
  cases hline : isUserLine user.bytes domain.bytes l with
  | true =>
    rw [editLine_of_isUserLine hline]
    cases p with
    | none => rfl
    | some pass => simp [ha1In_userLine]
  | false =>
    rcases editLine_of_not_isUserLine hline with hkept | ⟨hdropped, -⟩
    · have hnone : ha1In user.bytes domain.bytes l = none := by
        cases hin : ha1In user.bytes domain.bytes l with
        | none => rfl
        | some ha1 =>
          rw [isUserLine_of_ha1In hin] at hline
          cases hline
      rw [hkept, List.findSome?_cons, hnone]
      rfl
    · rw [hdropped]
      rfl

/-- The lines after a change. -/
def PasswordLines.modified (f : PasswordLines) (p : Option (List UInt8)) : List (List UInt8) :=
  f.lines.flatMap (editLine user.bytes domain.bytes p) ++
    if f.lines.any (isUserLine user.bytes domain.bytes) then [] else (p.map (userLine user.bytes domain.bytes)).toList

private theorem modified_fits (f : PasswordLines) (p : Option (List UInt8))
    (hlen : user.bytes.length + domain.bytes.length ≤ 220) :
    ∀ l ∈ f.modified user domain p, LF ∉ l ∧ NUL ∉ l ∧ l.length ≤ 254 := by
  have hnew : ∀ l ∈ (p.map (userLine user.bytes domain.bytes)).toList, LF ∉ l ∧ NUL ∉ l ∧ l.length ≤ 254 := by
    intro l hl
    rw [Option.mem_toList, Option.map_eq_some_iff] at hl
    obtain ⟨pass, -, rfl⟩ := hl
    exact userLine_fits user domain pass hlen
  intro l hl
  rcases List.mem_append.1 hl with hl | hl
  · obtain ⟨k, hk, hl⟩ := List.mem_flatMap.1 hl
    cases hline : isUserLine user.bytes domain.bytes k with
    | true =>
      rw [editLine_of_isUserLine hline] at hl
      exact hnew l hl
    | false =>
      rcases @editLine_of_not_isUserLine user domain p k hline with hkept | ⟨hdropped, -⟩
      · rw [hkept, List.mem_singleton] at hl
        rw [hl]
        exact f.fits k hk
      · rw [hdropped] at hl
        cases hl
  · split at hl
    next => cases hl
    next => exact hnew l hl

private theorem findSome?_flatMap {α β : Type} (g : List UInt8 → List α) (h : α → Option β)
    (lines : List (List UInt8)) : (lines.flatMap g).findSome? h = lines.findSome? fun l => (g l).findSome? h := by
  induction lines with
  | nil => rfl
  | cons l lines ih =>
    rw [List.flatMap_cons, List.findSome?_append, ih, List.findSome?_cons]
    cases (g l).findSome? h <;> rfl

/-- A call of `mg_modify_passwords_file` whose line fits. -/
structure Change where
  user : Field
  domain : Field
  pass : Option (List UInt8)
  fits : user.bytes.length + domain.bytes.length ≤ 220

/-- The digest after the change, if the user is not removed. -/
def Change.ha1 (c : Change) : Option (List UInt8) :=
  (if c.pass = some [] then none else c.pass).map (ha1Of c.user.bytes c.domain.bytes)

variable {user domain pass}

/-- The last line is copied without an end, and the new line is put behind it. -/
private theorem mgModifyPasswordsFile_unterminated (f : PasswordLines) {last u d rest : List UInt8} (hpass : pass ≠ [])
    (hlf : LF ∉ last) (hnul : NUL ∉ last) (hlen : last.length ≤ 254) (hscan : scanUser last = some (u, d, rest))
    (hother : (u, d) ≠ (user.bytes, domain.bytes)) (huser : f.lines.any (isUserLine user.bytes domain.bytes) = false) :
    mgModifyPasswordsFile (f.bytes ++ last) domain.bytes user.bytes (some pass) =
      (f.lines.flatMap (editLine user.bytes domain.bytes (some pass)) ++
        [last ++ userLine user.bytes domain.bytes pass]).flatMap (· ++ [LF]) := by
  have hne : last ≠ [] := by
    rintro rfl
    cases hscan
  have htail : ∀ fuel, copyLines user.bytes domain.bytes (some pass) (fuel + 1) last = (last, false) := by
    intro fuel
    obtain ⟨hu, hd⟩ := nul_not_mem_of_scanUser hnul hscan
    have hnotuser : ¬ (strcmp u user.bytes = 0 ∧ strcmp d domain.bytes = 0) := by
      rw [strcmp_eq_zero_iff hu user.nul_not_mem, strcmp_eq_zero_iff hd domain.nul_not_mem]
      rintro ⟨rfl, rfl⟩
      exact hother rfl
    have hend : copyLines user.bytes domain.bytes (some pass) fuel [] = ([], false) := by cases fuel <;> rfl
    rw [copyLines, fgets_last hlf (by omega) hne]
    dsimp only
    rw [textOf_of_not_mem hnul, hscan, hend]
    dsimp only
    rw [if_neg hnotuser, List.append_nil]
  obtain ⟨k, hk⟩ := Nat.exists_eq_add_of_le (length_le_bytes f.lines)
  have hcopy := copyLines_append user.nul_not_mem domain.nul_not_mem (some pass)
    (k + last.length + 1) last f.lines f.fits
  have hfuel : f.lines.length + (k + last.length + 1) = (f.bytes ++ last).length + 1 := by
    rw [List.length_append, PasswordLines.bytes, hk]
    omega
  rw [htail, huser, Bool.or_false, ← PasswordLines.bytes, hfuel] at hcopy
  unfold mgModifyPasswordsFile
  dsimp only
  rw [if_neg (by simpa using hpass), hcopy]
  simp

/-- A new user is added to a file whose last line has no end: the line is written behind the digest of the last user, so
that the new user is not found and the last one has a wrong digest. -/
theorem storedHa1_unterminated (f : PasswordLines) (bob dom : Field) {h : List UInt8} (hne : h ≠ [])
    (hh : ∀ c ∈ h, isspace c = false ∧ c ≠ NUL) (hpass : pass ≠ [])
    (hother : (bob.bytes, dom.bytes) ≠ (user.bytes, domain.bytes))
    (huser : f.lines.any (isUserLine user.bytes domain.bytes) = false)
    (hbob : storedHa1 f.bytes bob.bytes dom.bytes = none)
    (hlen : bob.bytes.length + dom.bytes.length + h.length + user.bytes.length + domain.bytes.length ≤ 218) :
    let file := mgModifyPasswordsFile (f.bytes ++ (bob.bytes ++ COLON :: (dom.bytes ++ COLON :: h)))
      domain.bytes user.bytes (some pass)
    storedHa1 file user.bytes domain.bytes = none ∧
      storedHa1 file bob.bytes dom.bytes =
        some ((h ++ userLine user.bytes domain.bytes pass).takeWhile (!isspace ·)) := by
  have hh' : LF ∉ h ∧ NUL ∉ h := ⟨fun hmem => absurd (hh LF hmem).1 (by decide), fun hmem => (hh NUL hmem).2 rfl⟩
  obtain ⟨hnewlf, hnewnul, -⟩ := userLine_fits user domain pass (by omega)
  have hscan := scanUser_append bob.ne_nil dom.ne_nil bob.colon_not_mem dom.colon_not_mem h
  have hlf : LF ∉ bob.bytes ++ COLON :: (dom.bytes ++ COLON :: h) := by
    simp only [List.mem_append, List.mem_cons, not_or]
    exact ⟨bob.lf_not_mem, by decide, dom.lf_not_mem, by decide, hh'.1⟩
  have hnul : NUL ∉ bob.bytes ++ COLON :: (dom.bytes ++ COLON :: h) := by
    simp only [List.mem_append, List.mem_cons, not_or]
    exact ⟨bob.nul_not_mem, by decide, dom.nul_not_mem, by decide, hh'.2⟩
  have hlong : (bob.bytes ++ COLON :: (dom.bytes ++ COLON :: h)).length +
      (userLine user.bytes domain.bytes pass).length ≤ 254 := by
    simp only [userLine, List.length_append, List.length_cons, ha1Of, length_mgMd5]
    omega
  have hentry : ∀ u d, ha1In u d (bob.bytes ++ COLON :: (dom.bytes ++ COLON :: h) ++ userLine user.bytes
      domain.bytes pass) =
      if bob.bytes = u ∧ dom.bytes = d then some ((h ++ userLine user.bytes domain.bytes pass).takeWhile (!isspace ·))
      else none := by
    intro u d
    unfold ha1In
    rw [scanEntry_glued bob.ne_nil dom.ne_nil bob.colon_not_mem dom.colon_not_mem hne fun c hc => (hh c hc).1]
  generalize bob.bytes ++ COLON :: (dom.bytes ++ COLON :: h) = last at hscan hlf hnul hlong hentry ⊢
  have hfits : ∀ l ∈ f.lines.flatMap (editLine user.bytes domain.bytes (some pass)) ++
      [last ++ userLine user.bytes domain.bytes pass], LF ∉ l ∧ NUL ∉ l ∧ l.length ≤ 254 := by
    intro l hl
    rcases List.mem_append.1 hl with hl | hl
    · exact modified_fits user domain f (some pass) (by omega) l (List.mem_append_left _ hl)
    · rw [List.mem_singleton] at hl
      subst hl
      simp only [List.mem_append, not_or, List.length_append]
      exact ⟨⟨hlf, hnewlf⟩, ⟨hnul, hnewnul⟩, hlong⟩
  have hfile := mgModifyPasswordsFile_unterminated f hpass hlf hnul (by omega) hscan hother huser
  rw [storedHa1_bytes f bob.nul_not_mem dom.nul_not_mem] at hbob
  dsimp only
  rw [hfile]
  have hstored := fun {u d : List UInt8} => @storedHa1_bytes ⟨_, hfits⟩ u d
  unfold PasswordLines.bytes at hstored
  rw [hstored user.nul_not_mem domain.nul_not_mem, hstored bob.nul_not_mem dom.nul_not_mem, List.findSome?_append,
    List.findSome?_append, findSome?_flatMap, findSome?_flatMap]
  simp only [findSome?_editLine_other user domain hother, findSome?_editLine_self, List.findSome?_cons,
    List.findSome?_nil, hentry, hbob]
  have hself : (f.lines.findSome? fun l => if isUserLine user.bytes domain.bytes l then
      (some pass).map (ha1Of user.bytes domain.bytes) else none) = none := by
    rw [List.findSome?_eq_none_iff]
    intro l hl
    rw [List.any_eq_false] at huser
    exact if_neg (huser l hl)
  have hnot : ¬ (bob.bytes = user.bytes ∧ dom.bytes = domain.bytes) := by
    rintro ⟨hu, hd⟩
    exact hother (by rw [hu, hd])
  rw [hself, if_neg hnot, if_pos ⟨trivial, trivial⟩]
  exact ⟨rfl, rfl⟩

/-- A user or a domain of one character. -/
def fieldOf (c : UInt8) (h : c ≠ COLON ∧ c ≠ LF ∧ c ≠ NUL) : Field :=
  ⟨[c], List.cons_ne_nil c [], List.forall_mem_singleton.2 h⟩

theorem storedHa1_unterminated_two :
    let file := mgModifyPasswordsFile (ascii ['b', ':', 'd', ':', '7']) (ascii ['d']) (ascii ['e']) (some (ascii ['p']))
    storedHa1 file (ascii ['e']) (ascii ['d']) = none ∧
      storedHa1 file (ascii ['b']) (ascii ['d']) =
        some ((ascii ['7'] ++ userLine (ascii ['e']) (ascii ['d']) (ascii ['p'])).takeWhile (!isspace ·)) :=
  @storedHa1_unterminated (fieldOf 101 (by decide)) (fieldOf 100 (by decide)) (ascii ['p']) ⟨[], List.forall_mem_nil _⟩
    (fieldOf 98 (by decide)) (fieldOf 100 (by decide)) (ascii ['7']) (by decide)
    (List.forall_mem_singleton.2 (by decide)) (by decide)
    (by decide) rfl rfl (by decide)

end Tinyweb

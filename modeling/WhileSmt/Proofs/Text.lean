import WhileSmt.Text.Blank
import WhileSmt.Text.Decimal
import WhileSmt.Text.Lines

/-!
Texts: decimal numbers, blanks and lines.

Main statements: the decimal text of an integer is read back as that integer
(`Text.readInteger?_integer`), trimming takes off blanks and nothing else (`Text.exists_trim`), and
it finds what stands between blanks (`Text.trim_append`).
-/

namespace WhileSmt

namespace Text

/-! ## Decimal digits -/

theorem isDigit_digitChar : ∀ d < 10, isDigit (digitChar d) = true := by
  decide

theorem digitValue_digitChar : ∀ d < 10, digitValue (digitChar d) = d := by
  decide

theorem isDigit_of_mem_digits {n : Nat} {c : Char} (h : c ∈ digits n) : isDigit c = true := by
  fun_induction digits n with
  | case1 n hn =>
    rw [List.mem_singleton.mp h]
    exact isDigit_digitChar n hn
  | case2 n hn ih =>
    rcases List.mem_append.mp h with h | h
    · exact ih h
    · rw [List.mem_singleton.mp h]
      exact isDigit_digitChar (n % 10) (Nat.mod_lt n (by decide))

theorem digits_ne_nil (n : Nat) : digits n ≠ [] := by
  unfold digits
  split <;> simp

/-- Horner's rule undoes the decomposition into digits. -/
theorem foldl_digits (n : Nat) :
    (digits n).foldl (fun n c => 10 * n + digitValue c) 0 = n := by
  fun_induction digits n with
  | case1 n hn => simp [digitValue_digitChar n hn]
  | case2 n hn ih =>
    have hlast := digitValue_digitChar (n % 10) (Nat.mod_lt n (by decide))
    rw [List.foldl_append, ih, List.foldl_cons, List.foldl_nil, hlast]
    omega

/-- A decimal text is read back as the number it was written for. -/
theorem readNatural?_digits (n : Nat) : readNatural? (digits n) = some n := by
  have hdigits : (digits n).all isDigit = true :=
    List.all_eq_true.mpr fun c hc => isDigit_of_mem_digits hc
  rw [readNatural?, if_neg (by simp [digits_ne_nil, hdigits]), foldl_digits]

theorem digits_injective {m n : Nat} (h : digits m = digits n) : m = n := by
  have hm := readNatural?_digits m
  rw [h, readNatural?_digits] at hm
  exact (Option.some.inj hm).symm

theorem digitChar_digitValue {c : Char} (h : isDigit c = true) : digitChar (digitValue c) = c := by
  simp only [isDigit, Char.le_def, UInt32.le_iff_toNat_le, Bool.and_eq_true,
    decide_eq_true_eq] at h
  change 48 ≤ c.toNat ∧ c.toNat ≤ 57 at h
  have hvalue : 48 + (c.toNat - 48) = c.toNat := by omega
  change Char.ofNat (48 + (c.toNat - 48)) = c
  rw [hvalue, Char.ofNat_toNat]

theorem digitValue_lt {c : Char} (h : isDigit c = true) : digitValue c < 10 := by
  simp only [isDigit, Char.le_def, UInt32.le_iff_toNat_le, Bool.and_eq_true,
    decide_eq_true_eq] at h
  change 48 ≤ c.toNat ∧ c.toNat ≤ 57 at h
  change c.toNat - 48 < 10
  omega

theorem digits_foldl_append {n : Nat} (hn : n ≠ 0) {ds : List Char}
    (hall : ∀ c ∈ ds, isDigit c = true) :
    digits (ds.foldl (fun n c => 10 * n + digitValue c) n) = digits n ++ ds := by
  induction ds generalizing n with
  | nil => simp
  | cons c ds ih =>
    rw [List.forall_mem_cons] at hall
    have hlt := digitValue_lt hall.1
    have hdiv : (10 * n + digitValue c) / 10 = n := by omega
    have hmod : (10 * n + digitValue c) % 10 = digitValue c := by omega
    have hnext : digits (10 * n + digitValue c) = digits n ++ [c] := by
      rw [digits, if_neg (by omega), hdiv, hmod, digitChar_digitValue hall.1]
    rw [List.foldl_cons, ih (by omega) hall.2, hnext, List.append_assoc, List.singleton_append]

theorem digits_zero : digits 0 = ['0'] := by
  rw [digits]
  rfl

/-- Digits without redundant zeros are those of their value. -/
theorem digits_foldl {ds : List Char} (hne : ds ≠ []) (hall : ∀ c ∈ ds, isDigit c = true)
    (hzero : ds = ['0'] ∨ ds.head? ≠ some '0') :
    digits (ds.foldl (fun n c => 10 * n + digitValue c) 0) = ds := by
  rcases hzero with rfl | hzero
  · exact digits_zero
  · obtain ⟨c, rest, rfl⟩ := List.exists_cons_of_ne_nil hne
    rw [List.forall_mem_cons] at hall
    have hfirst : digits (digitValue c) = [c] := by
      rw [digits, if_pos (digitValue_lt hall.1), digitChar_digitValue hall.1]
    have hpos : digitValue c ≠ 0 := by
      intro hvalue
      rw [hvalue, digits_zero] at hfirst
      exact hzero (by rw [← (List.cons.inj hfirst).1]; rfl)
    rw [List.foldl_cons, Nat.mul_zero, Nat.zero_add, digits_foldl_append hpos hall.2, hfirst,
      List.singleton_append]

/-- What stands before and after the last occurrence of a character is determined. -/
theorem eq_of_append_last {c : Char} {l₁ l₂ d₁ d₂ : List Char} (h₁ : c ∉ d₁) (h₂ : c ∉ d₂)
    (h : l₁ ++ c :: d₁ = l₂ ++ c :: d₂) : l₁ = l₂ ∧ d₁ = d₂ := by
  rcases List.append_eq_append_iff.mp h with ⟨m, hl, hd⟩ | ⟨m, hl, hd⟩
  · cases m with
    | nil =>
      rw [List.append_nil] at hl
      rw [List.nil_append, List.cons.injEq] at hd
      exact ⟨hl.symm, hd.2⟩
    | cons a m =>
      -- a longer first part would put the character into the second one
      rw [List.cons_append, List.cons.injEq] at hd
      exact absurd (hd.2 ▸ List.mem_append_right m List.mem_cons_self) h₁
  · cases m with
    | nil =>
      rw [List.append_nil] at hl
      rw [List.nil_append, List.cons.injEq] at hd
      exact ⟨hl, hd.2.symm⟩
    | cons a m =>
      rw [List.cons_append, List.cons.injEq] at hd
      exact absurd (hd.2 ▸ List.mem_append_right m List.mem_cons_self) h₂

theorem digits_head (n : Nat) : ∃ c rest, digits n = c :: rest ∧ isDigit c = true := by
  obtain ⟨c, rest, h⟩ := List.exists_cons_of_ne_nil (digits_ne_nil n)
  exact ⟨c, rest, h, isDigit_of_mem_digits (h ▸ List.mem_cons_self)⟩

theorem toList_integer_ofNat (n : Nat) : (integer (.ofNat n)).toList = digits n := by
  simp [integer, natural]

theorem toList_integer_negSucc (n : Nat) :
    (integer (.negSucc n)).toList = '-' :: digits (n + 1) := by
  simp [integer, natural]

/-- A text that does not start with a sign is read as a natural number. -/
theorem readInteger?_of_unsigned {c : Char} {rest : List Char} (hminus : c ≠ '-')
    (hplus : c ≠ '+') : readInteger? (c :: rest) = (readNatural? (c :: rest)).map Int.ofNat := by
  unfold readInteger?
  split
  · next h => exact absurd (List.cons.inj h).1 hminus
  · next h => exact absurd (List.cons.inj h).1 hplus
  · rfl

/-- The decimal text of an integer is read back as that integer. -/
theorem readInteger?_integer (n : Int) : readInteger? (integer n).toList = some n := by
  cases n with
  | ofNat n =>
    rw [toList_integer_ofNat]
    obtain ⟨c, rest, hdigits, hc⟩ := digits_head n
    have hminus : c ≠ '-' := by
      rintro rfl
      exact absurd hc (by decide)
    have hplus : c ≠ '+' := by
      rintro rfl
      exact absurd hc (by decide)
    rw [hdigits, readInteger?_of_unsigned hminus hplus, ← hdigits, readNatural?_digits]
    rfl
  | negSucc n =>
    rw [toList_integer_negSucc, readInteger?, readNatural?_digits]
    rfl

theorem readInt64?_int64 (n : Int64) : readInt64? (int64 n).toList = some n := by
  rw [readInt64?, int64, readInteger?_integer]
  exact narrow?_eq_some_iff.mpr rfl

theorem readNatural?_eq_some {text : List Char} {n : Nat} (h : readNatural? text = some n) :
    text ≠ [] ∧ (∀ c ∈ text, isDigit c = true) ∧
      n = text.foldl (fun n c => 10 * n + digitValue c) 0 := by
  unfold readNatural? at h
  split at h
  · cases h
  · next hcond =>
    simp only [Bool.or_eq_true, List.isEmpty_iff, Bool.not_eq_true', not_or, Bool.not_eq_false,
      List.all_eq_true] at hcond
    exact ⟨hcond.1, hcond.2, (Option.some.inj h).symm⟩

/-- A text that is read as an integer is a natural number after a sign or alone. -/
theorem readInteger?_eq_some {text : List Char} {m : Int} (h : readInteger? text = some m) :
    ∃ ds n, readNatural? ds = some n ∧
      (text = '-' :: ds ∧ m = -(n : Int) ∨ text = '+' :: ds ∧ m = n ∨ text = ds ∧ m = n) := by
  unfold readInteger? at h
  split at h
  · next rest =>
    cases hn : readNatural? rest with
    | none => simp [hn] at h
    | some n =>
      simp only [hn, Option.pure_def, Option.bind_eq_bind, Option.bind_some, Option.map_some,
        Option.some.injEq] at h
      exact ⟨rest, n, hn, .inl ⟨rfl, h.symm⟩⟩
  · obtain ⟨n, hn, hm⟩ := Option.map_eq_some_iff.mp h
    exact ⟨_, n, hn, .inr (.inl ⟨rfl, hm.symm⟩)⟩
  · obtain ⟨n, hn, hm⟩ := Option.map_eq_some_iff.mp h
    exact ⟨_, n, hn, .inr (.inr ⟨rfl, hm.symm⟩)⟩

/-- A text with a character that is neither a digit nor a sign is no number. -/
theorem readInt64?_eq_none {text : List Char} {c : Char} (hmem : c ∈ text)
    (hdigit : isDigit c = false) (hminus : c ≠ '-') (hplus : c ≠ '+') : readInt64? text = none := by
  have hnatural : ∀ t : List Char, c ∈ t → readNatural? t = none := by
    intro t ht
    have hall : t.all isDigit = false := List.all_eq_false.mpr ⟨c, ht, by simp [hdigit]⟩
    rw [readNatural?, if_pos (by simp [hall])]
  have hinteger : readInteger? text = none := by
    unfold readInteger?
    split
    · rw [hnatural _ ((List.mem_cons.mp hmem).resolve_left hminus)]
      rfl
    · rw [hnatural _ ((List.mem_cons.mp hmem).resolve_left hplus)]
      rfl
    · rw [hnatural _ hmem]
      rfl
  rw [readInt64?, hinteger]
  rfl

/-! ## Trimming -/

/-- A text of blanks. -/
def Blank (text : List Char) : Prop :=
  ∀ c ∈ text, isBlank c = true

/-- A text that neither starts nor ends with a blank. -/
structure Solid (text : List Char) : Prop where
  head : ∀ c ∈ text.head?, isBlank c = false
  last : ∀ c ∈ text.getLast?, isBlank c = false

theorem solid_singleton {c : Char} (hc : isBlank c = false) : Solid [c] where
  head := by rintro d ⟨⟩; exact hc
  last := by rintro d ⟨⟩; exact hc

theorem solid_of_forall {text : List Char} (h : ∀ c ∈ text, isBlank c = false) : Solid text where
  head := fun c hc => h c (List.mem_of_mem_head? hc)
  last := fun c hc => h c (List.mem_of_getLast? hc)

theorem blank_nil : Blank [] := fun _ h => nomatch h

theorem blank_space : Blank [' '] := by
  intro c hc
  rw [List.mem_singleton.mp hc]
  rfl

theorem blank_return : Blank ['\r'] := by
  intro c hc
  rw [List.mem_singleton.mp hc]
  rfl

theorem Blank.append {u v : List Char} (hu : Blank u) (hv : Blank v) : Blank (u ++ v) := by
  intro c hc
  exact (List.mem_append.mp hc).elim (hu c) (hv c)

theorem blank_takeWhile (text : List Char) : Blank (text.takeWhile isBlank) :=
  List.all_eq_true.mp List.all_takeWhile

theorem trimStart_append {w t : List Char} (hw : Blank w) : trimStart (w ++ t) = trimStart t :=
  List.dropWhile_append_of_pos hw

theorem trimStart_of_head {t : List Char} (ht : ∀ c ∈ t.head?, isBlank c = false) :
    trimStart t = t := by
  cases t with
  | nil => rfl
  | cons c rest => exact List.dropWhile_cons_of_neg (by simp [ht c rfl])

theorem trimStart_space {t : List Char} (ht : ∀ c ∈ t.head?, isBlank c = false) :
    trimStart (' ' :: t) = t := by
  have h := trimStart_append (t := t) blank_space
  rwa [List.singleton_append, trimStart_of_head ht] at h

theorem trimEnd_append {t w : List Char} (hw : Blank w) : trimEnd (t ++ w) = trimEnd t := by
  unfold trimEnd
  rw [List.reverse_append]
  exact congrArg List.reverse
    (List.dropWhile_append_of_pos fun c hc => hw c (List.mem_reverse.mp hc))

theorem trimEnd_of_last {t : List Char} (ht : ∀ c ∈ t.getLast?, isBlank c = false) :
    trimEnd t = t := by
  rw [← List.head?_reverse] at ht
  have h := trimStart_of_head ht
  rw [trimStart] at h
  rw [trimEnd, h, List.reverse_reverse]

/-- Trimming the end of a text reaches at most to its last character that is not blank. -/
theorem trimEnd_append_cons {c : Char} (hc : isBlank c = false) (u v : List Char) :
    trimEnd (u ++ c :: v) = u ++ c :: trimEnd v := by
  have hdrop : (c :: u.reverse).dropWhile isBlank = c :: u.reverse :=
    List.dropWhile_cons_of_neg (by simp [hc])
  have hrev : (u ++ c :: v).reverse = v.reverse ++ c :: u.reverse := by simp
  rw [trimEnd, trimEnd, hrev, List.dropWhile_append, hdrop]
  split
  · next hblank => simp [List.isEmpty_iff.mp hblank]
  · simp

/-- Trimming finds what stands between blanks. -/
theorem trim_append {w t w' : List Char} (hw : Blank w) (ht : Solid t) (hw' : Blank w') :
    trim (w ++ t ++ w') = t := by
  cases t with
  | nil =>
    have h := trimStart_append (t := []) (hw.append hw')
    rw [List.append_nil] at h
    rw [trim, List.append_nil, h]
    rfl
  | cons c rest =>
    have hstart : trimStart (c :: rest ++ w') = c :: rest ++ w' := trimStart_of_head ht.head
    rw [trim, List.append_assoc, trimStart_append hw, hstart, trimEnd_append hw',
      trimEnd_of_last ht.last]

theorem trim_append_blank (text : List Char) {w : List Char} (hw : Blank w) :
    trim (text ++ w) = trim text := by
  rw [trim, trim, trimStart, trimStart, List.dropWhile_append]
  split
  · next hempty =>
    have hstart := trimStart_append (t := []) hw
    rw [List.append_nil, trimStart] at hstart
    rw [hstart, List.isEmpty_iff.mp hempty]
    rfl
  · exact trimEnd_append hw

theorem trim_of_blank {w : List Char} (hw : Blank w) : trim w = [] :=
  trim_append_blank [] hw

theorem Solid.trim_eq {t : List Char} (ht : Solid t) : trim t = t := by
  have h := trim_append blank_nil ht blank_nil
  rwa [List.nil_append, List.append_nil] at h

/-- A text is solid if a solid text starts it and a solid text ends it. -/
theorem Solid.append {u v : List Char} (hu : Solid u) (hu' : u ≠ []) (hv : Solid v) (hv' : v ≠ [])
    (w : List Char) : Solid (u ++ (w ++ v)) where
  head := by
    obtain ⟨c, rest, rfl⟩ := List.exists_cons_of_ne_nil hu'
    exact hu.head
  last := by
    obtain ⟨front, c, rfl⟩ := (List.eq_nil_or_concat v).resolve_left hv'
    rw [List.concat_eq_append, ← List.append_assoc, ← List.append_assoc, List.getLast?_concat]
    have h := hv.last
    rwa [List.concat_eq_append, List.getLast?_concat] at h

theorem exists_trimStart (text : List Char) : ∃ w, Blank w ∧ text = w ++ trimStart text :=
  ⟨_, blank_takeWhile text, List.takeWhile_append_dropWhile.symm⟩

theorem exists_trimEnd (text : List Char) : ∃ w, Blank w ∧ text = trimEnd text ++ w := by
  obtain ⟨w, hw, h⟩ := exists_trimStart text.reverse
  refine ⟨w.reverse, fun c hc => hw c (List.mem_reverse.mp hc), ?_⟩
  have hreverse := congrArg List.reverse h
  rwa [List.reverse_reverse, List.reverse_append] at hreverse

/-- Trimming takes off blanks and nothing else. -/
theorem exists_trim (text : List Char) :
    ∃ w w', Blank w ∧ Blank w' ∧ text = w ++ trim text ++ w' := by
  obtain ⟨w, hw, hstart⟩ := exists_trimStart text
  obtain ⟨w', hw', hend⟩ := exists_trimEnd (trimStart text)
  refine ⟨w, w', hw, hw', ?_⟩
  rw [trim, List.append_assoc, ← hend, ← hstart]

theorem trim_trimStart (text : List Char) : trim (trimStart text) = trim text := by
  rw [trim, trim, trimStart_of_head]
  intro c hc
  have h := List.head?_dropWhile_not isBlank text
  rw [trimStart] at hc
  rw [Option.mem_def.mp hc] at h
  simpa using h

theorem getLast?_trim {text : List Char} {c : Char} (h : text.getLast? = some c)
    (hc : isBlank c = false) : (trim text).getLast? = some c := by
  obtain ⟨front, rfl⟩ := List.getLast?_eq_some_iff.mp h
  have hstart : ∃ front', trimStart (front ++ [c]) = front' ++ [c] := by
    rw [trimStart, List.dropWhile_append]
    split
    · exact ⟨[], List.dropWhile_cons_of_neg (by simp [hc])⟩
    · exact ⟨_, rfl⟩
  obtain ⟨front', hstart⟩ := hstart
  rw [trim, hstart, trimEnd_append_cons hc, trimEnd, List.reverse_nil, List.dropWhile_nil,
    List.reverse_nil, List.getLast?_concat]

theorem mem_trim {text : List Char} {c : Char} (hmem : c ∈ text) (hc : isBlank c = false) :
    c ∈ trim text := by
  obtain ⟨w, w', hw, hw', h⟩ := exists_trim text
  rw [h, List.mem_append, List.mem_append] at hmem
  rcases hmem with (hmem | hmem) | hmem
  · exact absurd (hw c hmem) (by simp [hc])
  · exact hmem
  · exact absurd (hw' c hmem) (by simp [hc])

end Text

end WhileSmt

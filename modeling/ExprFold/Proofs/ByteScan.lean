import ExprFold.Proofs.Spacing
import ExprFold.Token.ByteScan

/-!
# The scan of the bytes is the scan of the characters

`At s i cs` says that position `i` lies between two characters of `s` and which ones stand behind
it. There one byte tells the ASCII characters from each other and from all others
(`At.byteAt?_cons`), so that the scan of the bytes goes from one such position to the next
(`At.scan_eq`). It comes to an end and slices the text at boundaries only: `ByteScan.scan_eq`.
-/

namespace ExprFold.ByteScan

open String (utf8Len)

/-! ## Positions between characters -/

/-- The position lies between two characters, and behind it stand these. -/
def At (s : String) (i : Nat) (cs : List Char) : Prop :=
  ∃ before : List Char, s = String.ofList (before ++ cs) ∧ utf8Len before = i

namespace At

variable {s : String} {i : Nat} {c : Char} {cs ds : List Char}

theorem start (s : String) : At s 0 s.toList := ⟨[], by simp, rfl⟩

theorem append (h : At s i (cs ++ ds)) : At s (i + utf8Len cs) ds := by
  obtain ⟨before, rfl, rfl⟩ := h
  exact ⟨before ++ cs, by rw [List.append_assoc], String.utf8Len_append before cs⟩

theorem tail (h : At s i (c :: cs)) : At s (i + c.utf8Size) cs := by
  have hc : utf8Len [c] = c.utf8Size := by simp
  exact hc ▸ @append s i [c] cs h

theorem isValid (h : At s i cs) : String.Pos.Raw.IsValid s ⟨i⟩ := by
  obtain ⟨before, rfl, rfl⟩ := h
  rw [String.Pos.Raw.isValid_iff_exists_append, String.ofList_append]
  exact ⟨_, _, rfl, (String.rawEndPos_ofList before).symm⟩

theorem utf8ByteSize_eq (h : At s i cs) : s.utf8ByteSize = i + utf8Len cs := by
  obtain ⟨before, rfl, rfl⟩ := h
  rw [String.utf8ByteSize_ofList, String.utf8Len_append]

theorem slice?_eq (h : At s i (cs ++ ds)) :
    slice? s i (i + utf8Len cs) = some (String.ofList cs) := by
  rw [slice?, if_pos ⟨Nat.le_add_right _ _, h.isValid, h.append.isValid⟩]
  obtain ⟨before, rfl, rfl⟩ := h
  rw [← List.append_assoc, String.extract_of_valid]

end At

/-! ## One byte -/

/-- The byte is the character, an ASCII one, or both are beyond ASCII. -/
def Shows (b c : Char) : Prop := b = c ∧ c.toNat < 128 ∨ 128 ≤ b.toNat ∧ 128 ≤ c.toNat

theorem toNat_lt_iff_utf8Size_eq_one {c : Char} : c.toNat < 128 ↔ c.utf8Size = 1 := by
  rw [Char.utf8Size_eq_one_iff, UInt32.le_iff_toNat_le]
  exact Nat.lt_succ_iff

theorem toNat_ofUInt8 (b : UInt8) : (Char.ofUInt8 b).toNat = b.toNat := UInt8.toNat_toUInt32 b

theorem ofUInt8_of_utf8Size_eq_one {c : Char} (hc : c.toNat < 128) :
    Char.ofUInt8 c.val.toUInt8 = c := by
  rw [← Char.toNat_inj, toNat_ofUInt8, UInt32.toNat_toUInt8]
  exact Nat.mod_eq_of_lt (Nat.lt_trans hc (by decide))

/-- The first byte of a character that is not ASCII begins with two ones. -/
theorem le_toNat_or {a b : UInt8} (h : 128 ≤ b.toNat) : 128 ≤ (Char.ofUInt8 (a ||| b)).toNat := by
  rw [toNat_ofUInt8, UInt8.toNat_or]
  exact Nat.le_trans h Nat.right_le_or

/-- The first byte of a character shows it. -/
theorem exists_utf8EncodeChar_eq_cons (c : Char) :
    ∃ b bs, String.utf8EncodeChar c = b :: bs ∧ Shows (Char.ofUInt8 b) c := by
  by_cases hc : c.toNat < 128
  · refine ⟨_, _, String.utf8EncodeChar_eq_singleton (toNat_lt_iff_utf8Size_eq_one.1 hc), .inl ?_⟩
    exact ⟨ofUInt8_of_utf8Size_eq_one hc, hc⟩
  · have hle := Nat.le_of_not_lt hc
    rcases c.utf8Size_eq with h | h | h | h
    · exact absurd (toNat_lt_iff_utf8Size_eq_one.2 h) hc
    · exact ⟨_, _, String.utf8EncodeChar_eq_cons_cons h, .inr ⟨le_toNat_or (by decide), hle⟩⟩
    · exact ⟨_, _, String.utf8EncodeChar_eq_cons_cons_cons h, .inr ⟨le_toNat_or (by decide), hle⟩⟩
    · exact ⟨_, _, String.utf8EncodeChar_eq_cons_cons_cons_cons h,
        .inr ⟨le_toNat_or (by decide), hle⟩⟩

namespace At

variable {s : String} {i : Nat} {c : Char} {cs : List Char}

theorem byteAt?_nil (h : At s i []) : byteAt? s i = none := by
  rw [byteAt?, Option.map_eq_none_iff, getElem?_eq_none_iff, String.size_toByteArray,
    h.utf8ByteSize_eq]
  exact Nat.lt_irrefl i

theorem byteAt?_cons (h : At s i (c :: cs)) : ∃ b, byteAt? s i = some b ∧ Shows b c := by
  obtain ⟨before, rfl, rfl⟩ := h
  obtain ⟨b, bs, hc, hb⟩ := exists_utf8EncodeChar_eq_cons c
  refine ⟨_, Option.map_eq_some_iff.2 ⟨b, ?_, rfl⟩, hb⟩
  have hsize : before.utf8Encode.size = utf8Len before := by
    rw [← String.utf8ByteSize_ofList, ← String.size_toByteArray, String.toByteArray_ofList]
  have hbytes : (String.ofList (before ++ c :: cs)).toByteArray =
      before.utf8Encode ++ ((b :: bs).toByteArray ++ cs.utf8Encode) := by
    rw [String.toByteArray_ofList, List.utf8Encode_append, List.utf8Encode_cons,
      List.utf8Encode_singleton, hc]
  have hlead : 0 < (b :: bs).toByteArray.size := by rw [List.size_toByteArray]; exact Nat.succ_pos _
  rw [hbytes, getElem?_eq_some_iff]
  refine ⟨?_, ?_⟩
  · rw [ByteArray.size_append, ByteArray.size_append, hsize]
    omega
  · rw [ByteArray.getElem_append_right (Nat.le_of_eq hsize)]
    simp only [hsize, Nat.sub_self]
    rw [ByteArray.getElem_append_left hlead, List.getElem_toByteArray]
    rfl

end At

/-! ## Runs of bytes -/

/-- A class of ASCII characters. -/
def Ascii (p : Char → Bool) : Prop := ∀ c, p c = true → c.toNat < 128

theorem Shows.class_eq {b c : Char} {p : Char → Bool} (h : Shows b c) (hp : Ascii p) :
    p b = p c := by
  obtain ⟨rfl, -⟩ | ⟨hb, hc⟩ := h
  · rfl
  · have hfalse : ∀ d : Char, 128 ≤ d.toNat → p d = false := fun d hd =>
      Bool.eq_false_iff.2 fun h => absurd (hp d h) (Nat.not_lt.2 hd)
    rw [hfalse b hb, hfalse c hc]

theorem utf8Len_of_ascii {cs : List Char} (h : ∀ c ∈ cs, c.toNat < 128) :
    utf8Len cs = cs.length := by
  induction cs with
  | nil => rfl
  | cons c cs ih =>
    have hc : c.utf8Size = 1 := toNat_lt_iff_utf8Size_eq_one.1 (h c (by simp))
    rw [String.utf8Len_cons, ih fun d hd => h d (List.mem_cons_of_mem c hd), hc, List.length_cons]

section
variable {s : String} {i : Nat} {cs : List Char} {p : Char → Bool}

theorem At.tail_of_ascii {c : Char} (h : At s i (c :: cs)) (hc : c.toNat < 128) : At s (i + 1) cs :=
  toNat_lt_iff_utf8Size_eq_one.1 hc ▸ h.tail

/-- A run of bytes is the run of the characters. -/
theorem At.runEnd_eq (h : At s i cs) (hp : Ascii p) :
    runEnd s p i = i + (cs.takeWhile p).length ∧ At s (runEnd s p i) (cs.dropWhile p) := by
  induction cs generalizing i with
  | nil =>
    rw [runEnd_none h.byteAt?_nil]
    exact ⟨rfl, h⟩
  | cons c cs ih =>
    obtain ⟨b, hb, hc⟩ := h.byteAt?_cons
    rw [runEnd_some hb, hc.class_eq hp]
    by_cases hpc : p c = true
    · obtain ⟨hlen, hat⟩ := ih (h.tail_of_ascii (hp c hpc))
      rw [if_pos hpc, List.takeWhile_cons_of_pos hpc, List.dropWhile_cons_of_pos hpc,
        List.length_cons]
      exact ⟨by omega, hat⟩
    · rw [if_neg hpc, List.takeWhile_cons_of_neg hpc, List.dropWhile_cons_of_neg hpc]
      exact ⟨rfl, h⟩

end

/-! ## Numbers -/

theorem ascii_isDigit : Ascii Char.isDigit := by
  intro c hc
  rw [Char.isDigit_iff_toNat] at hc
  exact Nat.lt_of_le_of_lt hc.2 (by decide)

/-- A class of one or two ASCII characters. -/
theorem ascii_eq {d : Char} (hd : d.toNat < 128) : Ascii (· == d) := by
  intro c hc
  rwa [beq_iff_eq.1 hc]

section
variable {s : String} {i : Nat} {cs : List Char} {p : Char → Bool} {point mark : Bool}

theorem runEnd_runEnd : runEnd s p (runEnd s p i) = runEnd s p i := by
  fun_induction runEnd s p i with
  | case1 i b hb hp ih => exact ih
  | case2 i b hb hp => rw [runEnd_some hb, if_neg hp]
  | case3 i hb => exact runEnd_none hb

/-- Digits come first in what is left of a number. -/
theorem numberEnd_runEnd :
    numberEnd s point mark (runEnd s Char.isDigit i) = numberEnd s point mark i := by
  fun_induction runEnd s Char.isDigit i with
  | case1 i b hb hp ih => rw [ih, numberEnd_some hb, if_pos hp]
  | case2 i b hb hp => rfl
  | case3 i hb => rfl

/-- Behind the mark of an exponent only digits go on. -/
theorem numberEnd_mark : numberEnd s point true i = (runEnd s Char.isDigit i, true) := by
  fun_induction runEnd s Char.isDigit i with
  | case1 i b hb hp ih => rw [numberEnd_some hb, if_pos hp, ih]
  | case2 i b hb hp => simp [numberEnd_some hb, hp]
  | case3 i hb => simp [numberEnd_none hb]

theorem At.signEnd_eq (h : At s i cs) :
    signEnd s i = i + (Numeral.scanSign cs).1.toList.length ∧
      At s (signEnd s i) (Numeral.scanSign cs).2 := by
  cases cs with
  | nil =>
    simp only [signEnd, h.byteAt?_nil]
    exact ⟨rfl, h⟩
  | cons c cs =>
    obtain ⟨b, hb, hc⟩ := h.byteAt?_cons
    have hplus : (b == '+') = (c == '+') := hc.class_eq (ascii_eq (d := '+') (by decide))
    have hminus : (b == '-') = (c == '-') := hc.class_eq (ascii_eq (d := '-') (by decide))
    simp only [signEnd, hb, Option.any_some, hplus, hminus, Numeral.scanSign, Bool.or_eq_true,
      beq_iff_eq]
    split
    · rename_i hs
      exact ⟨rfl, h.tail_of_ascii (by rcases hs with rfl | rfl <;> decide)⟩
    · exact ⟨rfl, h⟩

/-- Where the digits are through, an exponent may follow, and nothing else if there was a point. -/
theorem At.numberEnd_exponent (h : At s i cs) (hd : ∀ c ∈ cs.head?, c.isDigit = false)
    (hp : ∀ c ∈ cs.head?, c = '.' → point = true) :
    numberEnd s point false i =
      (i + ((Numeral.scanExponent cs).1.elim [] Numeral.Exponent.text).length,
        point || (Numeral.scanExponent cs).1.isSome) := by
  cases cs with
  | nil => simp [numberEnd_none h.byteAt?_nil, Numeral.scanExponent]
  | cons c cs =>
    obtain ⟨b, hb, hc⟩ := h.byteAt?_cons
    have hdigit : b.isDigit = false := (hc.class_eq ascii_isDigit).trans (hd c rfl)
    have hpoint : (b == '.' && !point && !false) = false := by
      have heq : (b == '.') = (c == '.') := hc.class_eq (ascii_eq (d := '.') (by decide))
      have hthen := hp c rfl
      cases point <;> simp_all
    have hmark : (b == 'e' || b == 'E') = (c == 'e' || c == 'E') :=
      congrArg₂ (· || ·) (hc.class_eq (ascii_eq (d := 'e') (by decide)))
        (hc.class_eq (ascii_eq (d := 'E') (by decide)))
    rw [numberEnd_some hb, hdigit, hpoint, hmark, if_neg Bool.false_ne_true,
      if_neg Bool.false_ne_true]
    by_cases he : c = 'e' ∨ c = 'E'
    · obtain ⟨hsign, hat⟩ := (h.tail_of_ascii (by rcases he with rfl | rfl <;> decide)).signEnd_eq
      obtain ⟨hdigits, -⟩ := hat.runEnd_eq ascii_isDigit
      have hcond : ((c == 'e' || c == 'E') && !false) = true := by simpa using he
      rw [if_pos hcond, numberEnd_mark, runEnd_runEnd, hdigits, hsign]
      simp [Numeral.scanExponent, he, Numeral.Exponent.text]
      omega
    · have hcond : ((c == 'e' || c == 'E') && !false) = false := by simpa using he
      rw [hcond, if_neg Bool.false_ne_true]
      simp [Numeral.scanExponent, he]

/-- Where the digits before the point are through, the point may follow with the digits behind it.
-/
theorem At.numberEnd_fraction (h : At s i cs) (hd : ∀ c ∈ cs.head?, c.isDigit = false) :
    numberEnd s false false i =
      (i + ((Numeral.scanFraction cs).1.elim [] ('.' :: ·)).length +
          ((Numeral.scanExponent (Numeral.scanFraction cs).2).1.elim []
            Numeral.Exponent.text).length,
        (Numeral.scanFraction cs).1.isSome ||
          (Numeral.scanExponent (Numeral.scanFraction cs).2).1.isSome) := by
  cases cs with
  | nil => simp [numberEnd_none h.byteAt?_nil, Numeral.scanFraction, Numeral.scanExponent]
  | cons c cs =>
    by_cases hc : c = '.'
    · subst hc
      obtain ⟨b, hb, hshows⟩ := h.byteAt?_cons
      obtain ⟨rfl, -⟩ : b = '.' ∧ _ := hshows.resolve_right fun hc => absurd hc.2 (by decide)
      obtain ⟨hdigits, hat⟩ := (h.tail_of_ascii (by decide)).runEnd_eq ascii_isDigit
      have hexponent := hat.numberEnd_exponent (fun c => eq_false_of_mem_head?_dropWhile)
        fun _ _ _ => (rfl : true = true)
      have hpoint : numberEnd s false false i = numberEnd s true false (i + 1) := numberEnd_some hb
      rw [hpoint, ← numberEnd_runEnd, hexponent, hdigits]
      simp [Numeral.scanFraction]
      omega
    · have hnone : Numeral.scanFraction (c :: cs) = (none, c :: cs) := by
        simp [Numeral.scanFraction, hc]
      rw [hnone, h.numberEnd_exponent hd fun d hd hp => absurd (Option.some.inj hd ▸ hp) hc]
      simp

/-- The loop over the bytes of a number ends where the number does. -/
theorem At.numberEnd_eq (h : At s i cs) :
    numberEnd s false false i =
      (i + (Numeral.scan cs).1.text.length, !(Numeral.scan cs).1.isWhole) := by
  obtain ⟨hdigits, hat⟩ := h.runEnd_eq ascii_isDigit
  rw [← numberEnd_runEnd, hat.numberEnd_fraction fun c => eq_false_of_mem_head?_dropWhile, hdigits]
  simp [Numeral.scan, Numeral.text, Numeral.isWhole, Nat.add_assoc]

end

/-! ## Lexemes -/

theorem ascii_isBlank : Ascii Lexeme.isBlank := by
  intro c hc
  have hmem := Lexeme.mem_of_isBlank hc
  fin_cases hmem <;> decide

theorem ascii_isAlpha : Ascii Char.isAlpha := by
  intro c hc
  simp only [Char.isAlpha, Char.isUpper, Char.isLower, UInt32.le_iff_toNat_le, Bool.or_eq_true,
    Bool.and_eq_true, decide_eq_true_eq] at hc
  have hval : c.toNat = c.val.toNat := rfl
  rcases hc with hc | hc
  · exact hval ▸ Nat.lt_of_le_of_lt hc.2 (by decide)
  · exact hval ▸ Nat.lt_of_le_of_lt hc.2 (by decide)

theorem ascii_beginsNumber : Ascii Lexeme.beginsNumber := by
  intro c hc
  rcases Bool.or_eq_true _ _ ▸ hc with hc | hc
  · exact ascii_isDigit c hc
  · exact ascii_eq (d := '.') (by decide) c hc

theorem ascii_continuesName : Ascii Lexeme.continuesName := by
  intro c hc
  simp only [Lexeme.continuesName, Char.isAlphanum, Bool.or_eq_true] at hc
  rcases hc with (hc | hc) | hc
  · exact ascii_isAlpha c hc
  · exact ascii_isDigit c hc
  · exact ascii_eq (d := '_') (by decide) c hc

theorem ascii_beginsName : Ascii Lexeme.beginsName :=
  fun c hc => ascii_continuesName c (Lexeme.continuesName_of_beginsName hc)

theorem toNat_lt_of_single {c : Char} {t : Token} (h : Lexeme.single? c = some t) :
    c.toNat < 128 := by
  unfold Lexeme.single? at h
  split at h <;> first | decide | cases h

theorem Shows.single?_eq {b c : Char} (h : Shows b c) : Lexeme.single? b = Lexeme.single? c := by
  obtain ⟨rfl, -⟩ | ⟨hb, hc⟩ := h
  · rfl
  · have hnone : ∀ d : Char, 128 ≤ d.toNat → Lexeme.single? d = none := fun d hd =>
      Option.eq_none_iff_forall_ne_some.2 fun t ht =>
        absurd (toNat_lt_of_single ht) (Nat.not_lt.2 hd)
    rw [hnone b hb, hnone c hc]

/-- A number is written with as many bytes as characters. -/
theorem utf8Len_text {n : Numeral} (hn : n.WellFormed) : utf8Len n.text = n.text.length := by
  refine utf8Len_of_ascii fun c hc => ?_
  rcases hn.isDigit_or_mem hc with hd | hm
  · exact ascii_isDigit c hd
  · fin_cases hm <;> decide

section
variable {s : String} {i j : Nat} {b c : Char} {cs : List Char} {l : Lexeme}

theorem At.number_eq (h : At s i cs) :
    number s i = some (.token (Lexeme.ofNumeral (Numeral.scan cs).1),
        i + (Numeral.scan cs).1.text.length) ∧
      At s (i + (Numeral.scan cs).1.text.length) (Numeral.scan cs).2 := by
  have hat : At s i ((Numeral.scan cs).1.text ++ (Numeral.scan cs).2) :=
    (Numeral.scan_append cs).symm ▸ h
  have hslice := hat.slice?_eq
  have hrest := hat.append
  rw [utf8Len_text (Numeral.wellFormed_scan cs)] at hslice hrest
  refine ⟨?_, hrest⟩
  simp only [number, h.numberEnd_eq, hslice, Option.bind_eq_bind, Option.bind_some,
    Lexeme.ofNumeral]
  cases (Numeral.scan cs).1.isWhole <;> rfl

theorem At.name_eq (h : At s i cs) :
    name s i = some (.token (.name (String.ofList (cs.takeWhile Lexeme.continuesName))),
        i + (cs.takeWhile Lexeme.continuesName).length) ∧
      At s (i + (cs.takeWhile Lexeme.continuesName).length)
        (cs.dropWhile Lexeme.continuesName) := by
  obtain ⟨hstop, hrest⟩ := h.runEnd_eq ascii_continuesName
  rw [hstop] at hrest
  have hlen : utf8Len (cs.takeWhile Lexeme.continuesName) = _ :=
    utf8Len_of_ascii fun c hc => ascii_continuesName c (List.mem_takeWhile_imp hc)
  have hat : At s i (cs.takeWhile Lexeme.continuesName ++ cs.dropWhile Lexeme.continuesName) :=
    List.takeWhile_append_dropWhile.symm ▸ h
  have hslice := hat.slice?_eq
  rw [hlen] at hslice
  refine ⟨?_, hrest⟩
  simp only [name, hstop, hslice, Option.bind_eq_bind, Option.bind_some]
  rfl

theorem At.stray_eq (h : At s i (c :: cs)) : stray s i = some (.stray c i, i + c.utf8Size) := by
  have hat : At s i (c :: cs ++ []) := (List.append_nil _).symm ▸ h
  have hslice := hat.slice?_eq
  rw [← h.utf8ByteSize_eq] at hslice
  simp only [stray, hslice, Option.bind_eq_bind, Option.bind_some, String.toList_ofList]
  rfl

/-- All that is asked of the byte has the answer of the character. -/
theorem Shows.lexeme_eq (h : Shows b c) : lexeme s b i = lexeme s c i := by
  rw [lexeme, lexeme, h.single?_eq, h.class_eq ascii_beginsNumber, h.class_eq ascii_beginsName]

theorem lexeme_single {t : Token} (hs : Lexeme.single? c = some t) :
    lexeme s c i = some (.token t, i + 1) := by
  simp only [lexeme, hs]

theorem lexeme_number (hn : Lexeme.beginsNumber c = true) : lexeme s c i = number s i := by
  simp only [lexeme, Lexeme.single?_of_class rfl hn, hn, if_true]

theorem lexeme_name (hm : Lexeme.beginsName c = true) : lexeme s c i = name s i := by
  simp only [lexeme, Lexeme.single?_of_class rfl hm, Lexeme.beginsNumber_of_beginsName hm, hm,
    Bool.false_eq_true, if_true, if_false]

theorem lexeme_stray (hs : Lexeme.single? c = none) (hn : Lexeme.beginsNumber c = false)
    (hm : Lexeme.beginsName c = false) : lexeme s c i = stray s i := by
  simp only [lexeme, hs, hn, hm, Bool.false_eq_true, if_false]

/-! ## The scan -/

theorem scan_step :
    scan s i =
      match byteAt? s (runEnd s Lexeme.isBlank i) with
      | none => some [none]
      | some b =>
        match lexeme s b (runEnd s Lexeme.isBlank i) with
        | none => none
        | some (l, j) => (scan s j).map (some l :: ·) := by
  rw [scan]
  split
  · rename_i hb
    rw [hb]
  · rename_i b hb
    simp only [hb]
    split
    · rename_i hl
      rw [hl]
    · rename_i l j hl
      rw [hl]

/-- A blank in front changes nothing. -/
theorem At.scan_of_isBlank (h : At s i (c :: cs)) (hc : Lexeme.isBlank c = true) :
    scan s i = scan s (i + c.utf8Size) := by
  obtain ⟨b, hb, hshows⟩ := h.byteAt?_cons
  have hsize : c.utf8Size = 1 := toNat_lt_iff_utf8Size_eq_one.1 (ascii_isBlank c hc)
  have hrun : runEnd s Lexeme.isBlank i = runEnd s Lexeme.isBlank (i + 1) := by
    rw [runEnd_some hb, hshows.class_eq ascii_isBlank, if_pos hc]
  rw [scan_step, hrun, ← scan_step, hsize]

theorem At.scan_of_lexeme (h : At s i (c :: cs)) (hc : Lexeme.isBlank c = false)
    (hl : lexeme s c i = some (l, j)) : scan s i = (scan s j).map (some l :: ·) := by
  obtain ⟨b, hb, hshows⟩ := h.byteAt?_cons
  have hrun : runEnd s Lexeme.isBlank i = i := by
    rw [runEnd_some hb, hshows.class_eq ascii_isBlank, hc, if_neg nofun]
  rw [scan_step, hrun]
  simp only [hb, hshows.lexeme_eq, hl]

/-- From each position between two characters the scan goes on to the next one. -/
theorem At.scan_eq (h : At s i cs) : scan s i = some ((Lexeme.scan cs i).map some ++ [none]) := by
  induction cs, i using Lexeme.scanRec with
  | nil i =>
    rw [scan_step, runEnd_none h.byteAt?_nil, h.byteAt?_nil, Lexeme.scan_nil]
    rfl
  | blank c cs i hc ih => rw [h.scan_of_isBlank hc, ih h.tail, Lexeme.scan_blank hc]
  | single c t cs i hc ih =>
    have hsize : c.utf8Size = 1 := toNat_lt_iff_utf8Size_eq_one.1 (toNat_lt_of_single hc)
    have hl : lexeme s c i = some (.token t, i + c.utf8Size) := hsize ▸ lexeme_single hc
    rw [h.scan_of_lexeme (Lexeme.isBlank_of_single hc) hl, ih h.tail, Lexeme.scan_of_single hc]
    rfl
  | number c cs i hc ih =>
    obtain ⟨hl, hrest⟩ := h.number_eq
    rw [← lexeme_number hc] at hl
    rw [h.scan_of_lexeme (Lexeme.isBlank_of_class rfl hc) hl, ih hrest,
      Lexeme.scan_of_beginsNumber hc]
    rfl
  | name c cs i hc ih =>
    obtain ⟨hl, hrest⟩ := h.name_eq
    have hcont := Lexeme.continuesName_of_beginsName hc
    rw [← lexeme_name hc, List.takeWhile_cons_of_pos hcont] at hl
    rw [List.takeWhile_cons_of_pos hcont, List.dropWhile_cons_of_pos hcont] at hrest
    rw [h.scan_of_lexeme (Lexeme.isBlank_of_class rfl hc) hl, ih hrest,
      Lexeme.scan_of_beginsName hc]
    rfl
  | stray c cs i hb hs hn hm ih =>
    have hl := h.stray_eq
    rw [← lexeme_stray hs hn hm] at hl
    rw [h.scan_of_lexeme hb hl, ih h.tail, Lexeme.scan_stray hb hs hn hm]
    rfl

end

/-- **The scan of the bytes ends, slices the text between characters only, and finds what the scan
of the characters does**, with the mark of the end behind. -/
theorem scan_eq (s : String) : scan s 0 = some ((Lexeme.scan s.toList 0).map some ++ [none]) :=
  (At.start s).scan_eq

end ExprFold.ByteScan

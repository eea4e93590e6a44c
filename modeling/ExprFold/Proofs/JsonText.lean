import ExprFold.Json.Reader
import ExprFold.Json.Writer
import ExprFold.Proofs.Printing

/-!
# JSON text reads back

A JSON value that has a text, because every double in it is finite (`Json.Writable`), is what its
text is read as (`Json.parse?_write`). The two halves of the reader are taken on their own: the text
is cut into the words it was written with (`Writable.cuts`), and the machine builds the value from
these (`Writable.builds`), however deeply it is nested.
-/

namespace ExprFold.Json

/-! ## Strings -/

theorem hex4_of_lt : ∀ n < 32,
    hex4 n = ['0', '0', (n / 16).digitChar, (n % 16).digitChar] ∧
      unit? '0' '0' (n / 16).digitChar (n % 16).digitChar = some n := by
  decide

theorem scanString_hex4 {n : Nat} (hn : n < 32) (rest : List Char) :
    scanString ('\\' :: 'u' :: hex4 n ++ rest) =
      (scanString rest).map fun (cs, rest) => (Char.ofNat n :: cs, rest) := by
  obtain ⟨hhex, hunit⟩ := hex4_of_lt n hn
  rw [hhex]
  simp only [List.cons_append, List.nil_append]
  rw [scanString, hunit]
  simp only
  rw [if_neg (by omega), if_neg (by omega)]

theorem scanString_escape (c : Char) (rest : List Char) :
    scanString (escape c ++ rest) = (scanString rest).map fun (cs, rest) => (c :: cs, rest) := by
  unfold escape
  split
  case h_8 hquote hback _ _ _ _ _ =>
    split
    · rename_i h
      rw [scanString_hex4 h, Char.ofNat_toNat]
    · rename_i h
      rw [List.singleton_append, scanString, if_neg h]
      · exact hquote
      · exact fun _ _ _ _ _ hc _ => hback hc
      · exact fun _ _ hc _ => hback hc
  all_goals rfl

/-- What is written for a string is scanned as its characters. -/
theorem scanString_flatMap_escape (cs rest : List Char) :
    scanString (cs.flatMap escape ++ '"' :: rest) = some (cs, rest) := by
  induction cs with
  | nil => rw [List.flatMap_nil, List.nil_append, scanString]
  | cons c cs ih =>
    rw [List.flatMap_cons, List.append_assoc, scanString_escape, ih]
    rfl

/-! ## One word at a time -/

section

variable {c : Char} {rest : List Char}

theorem isBlank_of_punctuation {w : Word} (h : punctuation? c = some w) : isBlank c = false := by
  unfold punctuation? at h
  split at h <;> first | rfl | cases h

theorem words_punctuation {w : Word} (h : punctuation? c = some w) :
    words (c :: rest) = (words rest).map (w :: ·) := by
  rw [words, isBlank_of_punctuation h, h]
  rfl

theorem words_string (cs : List Char) :
    words ('"' :: (cs.flatMap escape ++ '"' :: rest)) =
      (words rest).map (.value (string (String.ofList cs)) :: ·) := by
  have hscan := scanString_flatMap_escape cs rest
  rw [words, show isBlank '"' = false from rfl, show punctuation? '"' = none from rfl]
  simp only [Bool.false_eq_true, if_false, if_true]
  split
  · rename_i h
    rw [hscan] at h
    cases h
  · rename_i h
    rw [hscan] at h
    cases h
    rfl

theorem words_minus : words ('-' :: rest) =
    (number? true (Numeral.scan rest).1).bind fun j =>
      (words (Numeral.scan rest).2).map (.value j :: ·) := by
  rw [words]
  rfl

/-- A digit begins nothing but a number. -/
theorem words_digit (h : c.isDigit = true) : words (c :: rest) =
    (number? false (Numeral.scan (c :: rest)).1).bind fun j =>
      (words (Numeral.scan (c :: rest)).2).map (.value j :: ·) := by
  have hblank : isBlank c = false := by
    rw [Bool.eq_false_iff]
    intro hb
    simp only [isBlank, Bool.or_eq_true, beq_iff_eq] at hb
    rcases hb with ((rfl | rfl) | rfl) | rfl <;> exact absurd h (by decide)
  have hpunctuation : punctuation? c = none := by
    unfold punctuation?
    split <;> first | rfl | exact absurd h (by decide)
  have hquote : c ≠ '"' := by rintro rfl; exact absurd h (by decide)
  have hminus : c ≠ '-' := by rintro rfl; exact absurd h (by decide)
  rw [words, hblank, hpunctuation]
  simp only [Bool.false_eq_true, if_false, hquote, hminus, h, dif_pos]

theorem words_named (hc : c ∈ ['n', 't', 'f']) : words (c :: rest) =
    (named? (c :: rest.takeWhile Char.isAlpha)).bind fun j =>
      (words (rest.dropWhile Char.isAlpha)).map (.value j :: ·) := by
  simp only [List.mem_cons, List.not_mem_nil, or_false] at hc
  rcases hc with rfl | rfl | rfl <;> rw [words] <;> rfl

end

/-! ## Texts of several words -/

/-- A text that no word goes on with. -/
def Stops (rest : List Char) : Prop := ∀ c ∈ rest.head?, (punctuation? c).isSome = true

theorem Stops.of_punctuation {c : Char} {w : Word} (h : punctuation? c = some w)
    (rest : List Char) : Stops (c :: rest) := by
  rintro _ ⟨⟩
  rw [h]
  rfl

theorem Stops.ends {rest : List Char} (h : Stops rest) : Numeral.Ends rest := by
  intro c hc
  have := h c hc
  unfold punctuation? at this
  split at this <;> first | decide | cases this

theorem Stops.isAlpha_eq_false {rest : List Char} (h : Stops rest) :
    ∀ c ∈ rest.head?, c.isAlpha = false := by
  intro c hc
  have := h c hc
  unfold punctuation? at this
  split at this <;> first | decide | cases this

/-- In front of a text that no word goes on with, the text is cut into the words. -/
def Cuts (cs : List Char) (ws : List Word) : Prop :=
  ∀ rest, Stops rest → words (cs ++ rest) = (words rest).map (ws ++ ·)

namespace Cuts

variable {cs ds : List Char} {ws us : List Word} {c : Char} {w : Word}

theorem nil : Cuts [] [] := by
  intro rest _
  simp

theorem punctuation (hw : punctuation? c = some w) (h : Cuts cs ws) : Cuts (c :: cs) (w :: ws) := by
  intro rest hr
  rw [List.cons_append, words_punctuation hw, h rest hr, Option.map_map]
  rfl

/-- Words with punctuation between them. -/
theorem append (h : Cuts cs ws) (h' : Cuts ds us) (hd : ∀ rest, Stops rest → Stops (ds ++ rest)) :
    Cuts (cs ++ ds) (ws ++ us) := by
  intro rest hr
  rw [List.append_assoc, h _ (hd rest hr), h' rest hr, Option.map_map]
  simp [Function.comp_def]

end Cuts

/-! ## Numbers -/

section

variable {f : FloatFormat} {n : Numeral} {negative : Bool}

/-- Printed numbers are among those that JSON allows. -/
theorem number?_of_printed (hn : f.Printed n) : number? negative n =
    if n.isWhole && !(negative && n.value.digits == 0) then
      some (integer (if negative then -(n.value.digits : Int) else n.value.digits))
    else if (Decimal.toFloat ⟨negative, n.value.digits, n.value.exponent⟩).isFinite then
      some (real (Decimal.toFloat ⟨negative, n.value.digits, n.value.exponent⟩))
    else none := by
  have hcomplete : n.isComplete = true := by
    have hmantissa : n.mantissa ≠ [] := by simp [Numeral.mantissa, hn.whole]
    have hexp := hn.exponent
    cases hx : n.exponent with
    | none => simp [Numeral.isComplete, hx, hmantissa]
    | some e => simp [Numeral.isComplete, hx, hmantissa, hexp e hx]
  have hlead : (n.whole.head? == some '0' && decide (1 < n.whole.length)) = false := by
    rw [Bool.and_eq_false_imp, beq_iff_eq]
    intro h
    simp [hn.leading h]
  rw [number?, if_neg (by simp [hn.whole, hcomplete, hn.fraction, hlead])]

theorem cuts_number (hn : f.Printed n) {j : Json} (hj : number? negative n = some j) :
    Cuts (if negative then '-' :: n.text else n.text) [.value j] := by
  intro rest hr
  have hscan := Numeral.scan_text_append hn.wellFormed hr.ends
  cases negative with
  | true =>
    rw [if_pos rfl, List.cons_append, words_minus, hscan, hj]
    rfl
  | false =>
    obtain ⟨c, cs, hcs, hc⟩ : ∃ c cs, n.text = c :: cs ∧ c.isDigit = true := by
      cases hw : n.whole with
      | nil => exact absurd hw hn.whole
      | cons c cs =>
        exact ⟨c, _, by rw [Numeral.text, hw]; rfl, hn.wellFormed.whole c (by simp [hw])⟩
    rw [if_neg Bool.false_ne_true]
    rw [hcs, List.cons_append] at hscan ⊢
    rw [words_digit hc, hscan, hj]
    rfl

theorem cuts_integer (k : Int) : Cuts (toString k).toList [.value (integer k)] := by
  have hlead : (Nat.toDigits 10 k.natAbs).head? = some '0' →
      (Nat.toDigits 10 k.natAbs).length = 1 := by
    intro h
    rcases Nat.eq_zero_or_pos k.natAbs with hz | hpos
    · rw [hz]; rfl
    · exact absurd h (head?_toDigits_ne_zero hpos)
  have hn : FloatFormat.Printed ⟨.toEven, false, none⟩ ⟨Nat.toDigits 10 k.natAbs, none, none⟩ :=
    .plain Nat.toDigits_ne_nil (fun _ => isDigit_of_mem_toDigits) hlead (by simp) (by simp)
  have hdigits : (Numeral.value ⟨Nat.toDigits 10 k.natAbs, none, none⟩).digits = k.natAbs := by
    simp [Numeral.value, Numeral.mantissa, Numeral.ofDigits_toDigits]
  have hwhole : Numeral.isWhole ⟨Nat.toDigits 10 k.natAbs, none, none⟩ = true := rfl
  by_cases hk : k < 0
  · have hj : number? true ⟨Nat.toDigits 10 k.natAbs, none, none⟩ = some (integer k) := by
      rw [number?_of_printed hn, hdigits, hwhole, if_pos (by simp; omega), if_pos rfl]
      congr 2
      omega
    have := cuts_number hn hj
    rw [toList_toString, if_pos hk]
    simpa [Numeral.text] using this
  · have hj : number? false ⟨Nat.toDigits 10 k.natAbs, none, none⟩ = some (integer k) := by
      rw [number?_of_printed hn, hdigits, hwhole, if_pos (by simp), if_neg Bool.false_ne_true]
      congr 2
      omega
    have := cuts_number hn hj
    rw [toList_toString, if_neg hk]
    simpa [Numeral.text] using this

theorem cuts_real {x : Float} (hx : x.isFinite = true) : Cuts (writeReal x) [.value (real x)] := by
  obtain ⟨n, hn, htext, hvalue⟩ := numberFormat.exists_write hx
  rw [writeReal, if_pos hx, htext]
  refine cuts_number hn ?_
  rw [number?_of_printed hn, hn.point rfl, hvalue]
  simp [hx]

end

theorem cuts_string (s : String) : Cuts (writeString s) [.value (string s)] := by
  intro rest _
  have hscan := @words_string rest s.toList
  rw [String.ofList_toList] at hscan
  rw [← List.singleton_append] at hscan
  simpa [writeString] using hscan

theorem cuts_named {cs : List Char} {j : Json} (hj : named? cs = some j) : Cuts cs [.value j] := by
  intro rest hr
  obtain ⟨c, tail, rfl, hc, htail⟩ : ∃ c tail, cs = c :: tail ∧ c ∈ ['n', 't', 'f'] ∧
      ∀ d ∈ tail, d.isAlpha = true := by
    unfold named? at hj
    split at hj
    · exact ⟨_, _, rfl, by simp, by simp⟩
    · exact ⟨_, _, rfl, by simp, by simp⟩
    · exact ⟨_, _, rfl, by simp, by simp⟩
    · cases hj
  rw [List.cons_append, words_named hc, takeWhile_append_of_stop htail hr.isAlpha_eq_false,
    dropWhile_append_of_stop htail hr.isAlpha_eq_false, hj]
  rfl

/-! ## Values -/

/-- Every double in the value is finite, so that JSON has a number for it. -/
inductive Writable : Json → Prop
  | null : Writable null
  | bool (b : Bool) : Writable (bool b)
  | integer (n : Int) : Writable (integer n)
  | real {x : Float} : x.isFinite = true → Writable (real x)
  | string (s : String) : Writable (string s)
  | array {items : List Json} : (∀ j ∈ items, Writable j) → Writable (array items)
  | object {members : List (String × Json)} :
      (∀ m ∈ members, Writable m.2) → Writable (object members)

mutual

/-- The words that a value is written with. -/
def wordsOf : Json → List Word
  | array items => .openArray :: itemWords true items ++ [.closeArray]
  | object members => .openObject :: memberWords true members ++ [.closeObject]
  | j => [.value j]

def itemWords (first : Bool) : List Json → List Word
  | [] => []
  | j :: js => (if first then [] else [.comma]) ++ wordsOf j ++ itemWords false js

def memberWords (first : Bool) : List (String × Json) → List Word
  | [] => []
  | (name, j) :: ms =>
    (if first then [] else [.comma]) ++ .value (string name) :: .colon :: wordsOf j ++
      memberWords false ms

end

theorem stops_itemChars {rest : List Char} (hr : Stops rest) (js : List Json) :
    Stops (itemChars false js ++ rest) := by
  cases js with
  | nil => simpa [itemChars] using hr
  | cons j js => simpa [itemChars] using Stops.of_punctuation (c := ',') rfl _

theorem stops_memberChars {rest : List Char} (hr : Stops rest) (ms : List (String × Json)) :
    Stops (memberChars false ms ++ rest) := by
  cases ms with
  | nil => simpa [memberChars] using hr
  | cons m ms => simpa [memberChars] using Stops.of_punctuation (c := ',') rfl _

theorem cuts_itemChars {js : List Json} (h : ∀ j ∈ js, Cuts (chars j) (wordsOf j)) (first : Bool) :
    Cuts (itemChars first js) (itemWords first js) := by
  induction js generalizing first with
  | nil => exact Cuts.nil
  | cons j js ih =>
    have hj := (h j (by simp)).append (ih (fun j hj => h j (by simp [hj])) false)
      (fun _ hr => stops_itemChars hr js)
    cases first with
    | true => simpa [itemChars, itemWords] using hj
    | false => simpa [itemChars, itemWords] using hj.punctuation (c := ',') rfl

theorem cuts_memberChars {ms : List (String × Json)}
    (h : ∀ m ∈ ms, Cuts (chars m.2) (wordsOf m.2)) (first : Bool) :
    Cuts (memberChars first ms) (memberWords first ms) := by
  induction ms generalizing first with
  | nil => exact Cuts.nil
  | cons m ms ih =>
    obtain ⟨name, j⟩ := m
    have hj := (h (name, j) (by simp)).append (ih (fun m hm => h m (by simp [hm])) false)
      (fun _ hr => stops_memberChars hr ms)
    have hname := (cuts_string name).append (hj.punctuation (c := ':') rfl)
      (fun _ _ => Stops.of_punctuation (c := ':') rfl _)
    cases first with
    | true => simpa [memberChars, memberWords] using hname
    | false => simpa [memberChars, memberWords] using hname.punctuation (c := ',') rfl

theorem Writable.cuts {j : Json} (h : Writable j) : Cuts (chars j) (wordsOf j) := by
  induction h with
  | null => exact cuts_named rfl
  | bool b => cases b <;> exact cuts_named rfl
  | integer n => simpa [chars, wordsOf] using cuts_integer n
  | real hx => simpa [chars, wordsOf] using cuts_real hx
  | string s => simpa [chars, wordsOf] using cuts_string s
  | array _ ih =>
    have hclose : Cuts [']'] [.closeArray] := Cuts.nil.punctuation rfl
    simpa [chars, wordsOf] using ((cuts_itemChars ih true).append hclose
      (fun _ _ => Stops.of_punctuation (c := ']') rfl _)).punctuation (c := '[') rfl
  | object _ ih =>
    have hclose : Cuts ['\x7d'] [.closeObject] := Cuts.nil.punctuation rfl
    simpa [chars, wordsOf] using ((cuts_memberChars ih true).append hclose
      (fun _ _ => Stops.of_punctuation (c := '\x7d') rfl _)).punctuation (c := '\x7b') rfl

/-! ## Putting the words together -/

/-- Where a value may come, the machine reads the words of this one and places it. -/
def Builds (j : Json) : Prop :=
  ∀ frames, (wordsOf j).foldlM step (.inside .value frames) = place j frames ∧
    (wordsOf j).foldlM step (.inside .firstItem frames) = place j frames

theorem foldlM_itemWords {js : List Json} (h : ∀ j ∈ js, Builds j) (first : Bool)
    (acc : List Json) (frames : List Frame) :
    (itemWords first js ++ [Word.closeArray]).foldlM step
        (.inside (if first then .firstItem else .separator) (.array acc :: frames)) =
      place (array (acc.reverse ++ js)) frames := by
  induction js generalizing first acc with
  | nil => cases first <;> simp [itemWords, step]
  | cons j js ih =>
    have hj := h j (by simp)
    have hrest := ih (fun j hj => h j (by simp [hj])) false (j :: acc)
    simp only [List.reverse_cons, List.append_assoc, List.singleton_append] at hrest
    cases first with
    | true =>
      rw [itemWords, if_pos rfl, if_pos rfl, List.nil_append, List.append_assoc,
        List.foldlM_append, (hj _).2]
      exact hrest
    | false =>
      rw [itemWords, if_neg nofun, if_neg nofun, List.singleton_append, List.cons_append,
        List.cons_append, List.append_assoc, List.foldlM_cons]
      show List.foldlM step (.inside .value (.array acc :: frames)) _ = _
      rw [List.foldlM_append, (hj _).1]
      exact hrest

theorem foldlM_memberWords {ms : List (String × Json)} (h : ∀ m ∈ ms, Builds m.2) (first : Bool)
    (acc : List (String × Json)) (frames : List Frame) :
    (memberWords first ms ++ [Word.closeObject]).foldlM step
        (.inside (if first then .firstName else .separator) (.object acc :: frames)) =
      place (object (acc.reverse ++ ms)) frames := by
  induction ms generalizing first acc with
  | nil => cases first <;> simp [memberWords, step]
  | cons m ms ih =>
    obtain ⟨name, j⟩ := m
    have hj := h (name, j) (by simp)
    have hrest := ih (fun m hm => h m (by simp [hm])) false ((name, j) :: acc)
    simp only [List.reverse_cons, List.append_assoc, List.singleton_append] at hrest
    have hmember : (wordsOf j ++ (memberWords false ms ++ [Word.closeObject])).foldlM step
        (.inside .value (.member name acc :: frames)) =
          place (object (acc.reverse ++ (name, j) :: ms)) frames := by
      rw [List.foldlM_append, (hj _).1]
      exact hrest
    cases first with
    | true =>
      simp only [memberWords, if_true, List.nil_append, List.append_assoc, List.cons_append]
      exact hmember
    | false =>
      simp only [memberWords, Bool.false_eq_true, if_false, List.append_assoc, List.cons_append]
      exact hmember

theorem Writable.builds {j : Json} (h : Writable j) : Builds j := by
  induction h with
  | array _ ih =>
    intro frames
    have := foldlM_itemWords ih true [] frames
    exact ⟨this, this⟩
  | object _ ih =>
    intro frames
    have := foldlM_memberWords ih true [] frames
    exact ⟨this, this⟩
  | _ => intro frames; simp [wordsOf, step]

/-- **What is written is read back**, at any depth of nesting. -/
theorem parse?_write {j : Json} (h : Writable j) : parse? (write j) = some j := by
  have hwords : words (chars j) = some (wordsOf j) := by
    have := h.cuts [] nofun
    rw [List.append_nil] at this
    rw [this, words]
    simp
  rw [parse?, write, String.toList_ofList, hwords]
  have := (h.builds []).1
  simp [this, place]

end ExprFold.Json

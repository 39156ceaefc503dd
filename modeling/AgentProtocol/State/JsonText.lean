import AgentProtocol.Ids
import AgentProtocol.Lib.Scan
import AgentProtocol.State.Encode

/-!
# JSON as text (`json.dumps`, `JSON.parse`)

`Json.text` is the text that `json.dumps` writes for a document, with the separators of
`sse_block`: one line of ASCII. `parseJson` reads a text back; a number is kept as it is
written. A surrogate that stands alone is no character here.

A float is written as its `repr`, and `NaN` and the infinities are no JSON: a text with one of
them is refused. `json.dumps` writes an entry for each key of a dict, and two keys may have one
text (`1` and `"1"`); `JSON.parse` keeps the last of them (`Json.merged`).
-/

namespace AgentProtocol

/-! ## Writing -/

/-- `\uXXXX` -/
def unicodeEscape (u : Nat) : List Char :=
  ['\x5c', 'u'] ++ (Numeral.numeral 16 4 u).map Nat.digitChar

/-- A character of a string, in ASCII. -/
def escapeChar (c : Char) : List Char :=
  match c with
  | '\x22' => ['\x5c', '\x22']
  | '\x5c' => ['\x5c', '\x5c']
  | '\n' => ['\x5c', 'n']
  | '\r' => ['\x5c', 'r']
  | '\t' => ['\x5c', 't']
  | '\x0c' => ['\x5c', 'f']
  | '\x08' => ['\x5c', 'b']
  | c =>
    if ' ' ≤ c ∧ c ≤ '~' then [c]
    else if c.toNat < 0x10000 then unicodeEscape c.toNat
    else
      -- surrogate pair
      let n := c.toNat - 0x10000
      unicodeEscape (0xd800 ||| (n >>> 10 &&& 0x3ff)) ++ unicodeEscape (0xdc00 ||| (n &&& 0x3ff))

def stringText (s : String) : List Char := '\x22' :: s.toList.flatMap escapeChar ++ ['\x22']

namespace Json

mutual

/-- `json.dumps(x, separators=(",", ":"))` -/
def text : Json → List Char
  | .null => "null".toList
  | .bool b => if b then "true".toList else "false".toList
  | .int i => (toString i).toList
  | .float r => (floatText r).toList
  | .str s => stringText s
  | .arr xs => '[' :: [','].intercalate (textList xs) ++ [']']
  | .obj es => '\x7b' :: [','].intercalate (textEntries es) ++ ['\x7d']

def textList : List Json → List (List Char)
  | [] => []
  | x :: xs => x.text :: textList xs

def textEntries : List (String × Json) → List (List Char)
  | [] => []
  | (k, x) :: es => (stringText k ++ ':' :: x.text) :: textEntries es

end

/-- The properties of an object: a key that comes again has the last of its values. -/
def object (es : List (String × Json)) : Json := .obj (Dict.ofList es).entries

end Json

/-! ## Reading -/

def hexDigit? (c : Char) : Option Nat :=
  if '0' ≤ c ∧ c ≤ '9' then some (c.toNat - 48)
  else if 'a' ≤ c ∧ c ≤ 'f' then some (c.toNat - 87)
  else if 'A' ≤ c ∧ c ≤ 'F' then some (c.toNat - 55)
  else none

/-- Four hex digits. -/
def scanHex4 : Scan Nat
  | a :: b :: c :: d :: cs =>
    match hexDigit? a, hexDigit? b, hexDigit? c, hexDigit? d with
    | some a, some b, some c, some d => some (((a * 16 + b) * 16 + c) * 16 + d, cs)
    | _, _, _, _ => none
  | _ => none

def isHighSurrogate (u : Nat) : Bool := decide (0xd800 ≤ u) && decide (u < 0xdc00)

def isLowSurrogate (u : Nat) : Bool := decide (0xdc00 ≤ u) && decide (u < 0xe000)

/-- After `\u`: a code unit, and the other one where it is half of a pair. -/
def scanUnicode : Scan Char := fun cs =>
  match scanHex4 cs with
  | none => none
  | some (u, cs) =>
    if isHighSurrogate u then
      match cs with
      | '\x5c' :: 'u' :: cs =>
        match scanHex4 cs with
        | some (v, cs) =>
          if isLowSurrogate v then
            some (.ofNat (0x10000 + (u - 0xd800) * 0x400 + (v - 0xdc00)), cs)
          else none
        | none => none
      | _ => none
    else if isLowSurrogate u then none
    else some (.ofNat u, cs)

/-- One character of a string. -/
def scanChar : Scan Char
  | '\x5c' :: '\x22' :: cs => some ('\x22', cs)
  | '\x5c' :: '\x5c' :: cs => some ('\x5c', cs)
  | '\x5c' :: '/' :: cs => some ('/', cs)
  | '\x5c' :: 'n' :: cs => some ('\n', cs)
  | '\x5c' :: 'r' :: cs => some ('\r', cs)
  | '\x5c' :: 't' :: cs => some ('\t', cs)
  | '\x5c' :: 'f' :: cs => some ('\x0c', cs)
  | '\x5c' :: 'b' :: cs => some ('\x08', cs)
  | '\x5c' :: 'u' :: cs => scanUnicode cs
  | '\x5c' :: _ => none
  | c :: cs => if c < ' ' then none else some (c, cs)
  | [] => none

/-- The characters of a string, up to the closing quote. -/
def scanChars : Nat → Scan (List Char)
  | 0, _ => none
  | _ + 1, '\x22' :: cs => some ([], cs)
  | fuel + 1, cs =>
    match scanChar cs with
    | none => none
    | some (c, cs) => (scanChars fuel cs).map fun p => (c :: p.1, p.2)

def scanString (fuel : Nat) : Scan String
  | '\x22' :: cs => (scanChars fuel).map String.ofList cs
  | _ => none

def isNumberChar (c : Char) : Bool := c.isDigit || "+-.eE".toList.contains c

def isDigits (cs : List Char) : Bool := !cs.isEmpty && cs.all Char.isDigit

/-- Digits without a leading zero. -/
def isIntPart (ds : List Char) : Bool :=
  isDigits ds && (ds.length == 1 || ds.head? != some '0')

def isExponent : List Char → Bool
  | [] => false
  | e :: cs => (e == 'e' || e == 'E') &&
    match cs with
    | '+' :: ds => isDigits ds
    | '-' :: ds => isDigits ds
    | ds => isDigits ds

/-- A fraction, an exponent, or the one and then the other. -/
def isFraction : List Char → Bool
  | '.' :: cs =>
    isDigits (cs.takeWhile Char.isDigit) &&
      ((cs.dropWhile Char.isDigit).isEmpty || isExponent (cs.dropWhile Char.isDigit))
  | cs => isExponent cs

/-- The sign of a number, and the rest. -/
def unsigned : List Char → Bool × List Char
  | '-' :: cs => (true, cs)
  | cs => (false, cs)

/-- A number with a fraction or an exponent. -/
def isFloatLiteral (cs : List Char) : Bool :=
  let cs := (unsigned cs).2
  isIntPart (cs.takeWhile Char.isDigit) && isFraction (cs.dropWhile Char.isDigit)

/-- The number these characters are. -/
def numberOf (cs : List Char) : Option Json :=
  if isFloatLiteral cs then some (.float (.ofList cs))
  else
    let (negative, ds) := unsigned cs
    if isIntPart ds then
      let n : Nat := Nat.ofDigitChars 10 ds 0
      some (.int (if negative then -n else n))
    else none

def scanNumber : Scan Json := fun cs =>
  match Scan.span isNumberChar cs with
  | none => none
  | some (number, cs) => (numberOf number).map fun x => (x, cs)

def isBlank (c : Char) : Bool := " \n\r\t".toList.contains c

/-- A word of the grammar. -/
def scanWord (word : String) (x : Json) : Scan Json := fun cs =>
  if word.toList.isPrefixOf cs then some (x, cs.drop word.length) else none

/-- A value, at most `fuel` deep and long. -/
def scanValue : Nat → Scan Json
  | 0, _ => none
  | fuel + 1, cs =>
    match cs with
    | [] => none
    | '\x22' :: _ => (scanString fuel).map Json.str cs
    | '[' :: rest =>
      match rest.dropWhile isBlank with
      | ']' :: rest => some (.arr [], rest)
      | rest => (Scan.items (Scan.token isBlank (scanValue fuel)) ',' ']' fuel).map Json.arr rest
    | '\x7b' :: rest =>
      match rest.dropWhile isBlank with
      | '\x7d' :: rest => some (.obj [], rest)
      | rest =>
        (Scan.items (Scan.pair ':' (Scan.token isBlank (scanString fuel))
          (Scan.token isBlank (scanValue fuel))) ',' '\x7d' fuel).map Json.object rest
    | 'n' :: _ => scanWord "null" .null cs
    | 't' :: _ => scanWord "true" (.bool true) cs
    | 'f' :: _ => scanWord "false" (.bool false) cs
    | _ => scanNumber cs

/-- `JSON.parse` -/
def parseJson (s : String) : Option Json :=
  match Scan.token isBlank (scanValue (s.toList.length + 1)) s.toList with
  | some (x, []) => some x
  | _ => none

/-! ## Strings come back -/

theorem hexDigit?_digitChar {d : Nat} (h : d < 16) : hexDigit? (Nat.digitChar d) = some d := by
  interval_cases d <;> rfl

theorem scanHex4_numeral {u : Nat} (h : u < 0x10000) (rest : List Char) :
    scanHex4 ((Numeral.numeral 16 4 u).map Nat.digitChar ++ rest) = some (u, rest) := by
  have hdigits : Numeral.numeral 16 4 u =
      [u / 16 / 16 / 16 % 16, u / 16 / 16 % 16, u / 16 % 16, u % 16] := rfl
  have hlt : ∀ n, n % 16 < 16 := fun n => Nat.mod_lt n (by omega)
  rw [hdigits]
  simp only [List.map_cons, List.map_nil, List.cons_append, List.nil_append, scanHex4,
    hexDigit?_digitChar (hlt _), Option.some.injEq, Prod.mk.injEq, and_true]
  omega

/-- A character of the first plane. -/
theorem scanUnicode_escape (c : Char) (h : c.toNat < 0x10000) (rest : List Char) :
    scanUnicode ((Numeral.numeral 16 4 c.toNat).map Nat.digitChar ++ rest) = some (c, rest) := by
  have hvalid : c.toNat < 0xd800 ∨ 0xdfff < c.toNat ∧ c.toNat < 0x110000 := c.valid
  have hhigh : isHighSurrogate c.toNat = false := by
    simp only [isHighSurrogate, Bool.and_eq_false_iff, decide_eq_false_iff_not]
    omega
  have hlow : isLowSurrogate c.toNat = false := by
    simp only [isLowSurrogate, Bool.and_eq_false_iff, decide_eq_false_iff_not]
    omega
  rw [scanUnicode, scanHex4_numeral h]
  simp [hhigh, hlow, Char.ofNat_toNat]

/-- The two halves of a character above it. -/
theorem surrogates_eq (n : Nat) :
    0xd800 ||| (n >>> 10 &&& 0x3ff) = 0xd800 + n / 1024 % 1024 ∧
      0xdc00 ||| (n &&& 0x3ff) = 0xdc00 + n % 1024 := by
  have hhigh := stamp_eq 54 (n >>> 10) 10
  have hlow := stamp_eq 55 n 10
  rw [Nat.shiftRight_eq_div_pow] at hhigh ⊢
  exact ⟨hhigh, hlow⟩

theorem scanUnicode_pair (c : Char) {n : Nat} (hn : c.toNat = 0x10000 + n) (rest : List Char) :
    scanUnicode ((Numeral.numeral 16 4 (0xd800 ||| (n >>> 10 &&& 0x3ff))).map Nat.digitChar ++
      (unicodeEscape (0xdc00 ||| (n &&& 0x3ff)) ++ rest)) = some (c, rest) := by
  have hvalid : c.toNat < 0xd800 ∨ 0xdfff < c.toNat ∧ c.toNat < 0x110000 := c.valid
  obtain ⟨hhigh, hlow⟩ := surrogates_eq n
  have hhalf : isHighSurrogate (0xd800 + n / 1024 % 1024) = true := by
    simp only [isHighSurrogate, Bool.and_eq_true, decide_eq_true_eq]
    omega
  have hother : isLowSurrogate (0xdc00 + n % 1024) = true := by
    simp only [isLowSurrogate, Bool.and_eq_true, decide_eq_true_eq]
    omega
  have hsum : 0x10000 + (0xd800 + n / 1024 % 1024 - 0xd800) * 0x400 + (0xdc00 + n % 1024 - 0xdc00) =
      c.toNat := by
    omega
  rw [hhigh, hlow, scanUnicode, scanHex4_numeral (by omega), unicodeEscape]
  simp only [hhalf, if_true, List.cons_append, List.nil_append]
  rw [scanHex4_numeral (by omega)]
  simp only [hother, if_true]
  rw [hsum, Char.ofNat_toNat]

theorem scanChar_unicodeEscape (u : Nat) (rest : List Char) :
    scanChar (unicodeEscape u ++ rest) =
      scanUnicode ((Numeral.numeral 16 4 u).map Nat.digitChar ++ rest) := rfl

theorem scanChar_escapeChar (c : Char) (rest : List Char) :
    scanChar (escapeChar c ++ rest) = some (c, rest) := by
  unfold escapeChar
  split
  case h_8 hquote hslash hn hr ht hf hb =>
    split
    · next hprint =>
      have hctrl : ¬c < ' ' := Char.not_lt.mpr hprint.1
      rw [List.singleton_append]
      unfold scanChar
      split <;> simp_all
    · split
      · next hplane => rw [scanChar_unicodeEscape, scanUnicode_escape c hplane]
      · next hplane =>
        rw [List.append_assoc, scanChar_unicodeEscape, scanUnicode_pair c (by omega)]
  all_goals rfl

/-- No character is written as the closing quote. -/
theorem scanChars_escapeChar (fuel : Nat) (c : Char) (rest : List Char) :
    scanChars (fuel + 1) (escapeChar c ++ rest) =
      (scanChars fuel rest).map fun p => (c :: p.1, p.2) := by
  have hchar := scanChar_escapeChar c rest
  rw [scanChars, hchar]
  intro cs hcs
  rw [hcs] at hchar
  obtain ⟨rfl, rfl⟩ : '\x22' = c ∧ cs = rest := by simpa [scanChar] using hchar
  cases hcs

theorem scanChars_text (cs : List Char) {fuel : Nat} (h : cs.length < fuel) (rest : List Char) :
    scanChars fuel (cs.flatMap escapeChar ++ '\x22' :: rest) = some (cs, rest) := by
  induction cs generalizing fuel with
  | nil =>
      cases fuel with
      | zero => cases h
      | succ fuel => rfl
  | cons c cs ih =>
      cases fuel with
      | zero => cases h
      | succ fuel =>
          have hcs : cs.length < fuel := by simpa using h
          rw [List.flatMap_cons, List.append_assoc, scanChars_escapeChar, ih hcs]
          rfl

theorem escapeChar_ne_nil (c : Char) : escapeChar c ≠ [] := by
  intro h
  have hchar := scanChar_escapeChar c []
  rw [h] at hchar
  cases hchar

theorem length_le_flatMap_escapeChar (cs : List Char) :
    cs.length ≤ (cs.flatMap escapeChar).length := by
  induction cs with
  | nil => exact Nat.le_refl 0
  | cons c cs ih =>
      have hc := List.length_pos_iff.mpr (escapeChar_ne_nil c)
      rw [List.flatMap_cons, List.length_append, List.length_cons]
      omega

theorem reads_stringText (s : String) {fuel : Nat} (h : (stringText s).length ≤ fuel + 1) :
    (scanString fuel).Reads (fun _ => True) (stringText s) (some s) := by
  intro rest _
  have hlen := length_le_flatMap_escapeChar s.toList
  have hfuel : s.toList.length < fuel := by
    simp only [stringText, List.length_append, List.length_cons, List.length_nil] at h
    omega
  have htext : stringText s ++ rest =
      '\x22' :: (s.toList.flatMap escapeChar ++ '\x22' :: rest) := by
    simp [stringText]
  rw [htext]
  show (scanChars fuel _).map _ = _
  rw [scanChars_text _ hfuel]
  simp

/-! ## Numbers come back -/

theorem isNumberChar_of_isDigit {c : Char} (h : c.isDigit = true) : isNumberChar c = true := by
  rw [isNumberChar, h, Bool.true_or]

theorem isNumberChar_of_isDigits {cs : List Char} (h : isDigits cs = true) :
    ∀ c ∈ cs, isNumberChar c = true := by
  rw [isDigits, Bool.and_eq_true, List.all_eq_true] at h
  exact fun c hc => isNumberChar_of_isDigit (h.2 c hc)

theorem isNumberChar_of_isExponent {cs : List Char} (h : isExponent cs = true) :
    ∀ c ∈ cs, isNumberChar c = true := by
  cases cs with
  | nil => cases h
  | cons e cs =>
      unfold isExponent at h
      rw [Bool.and_eq_true, Bool.or_eq_true, beq_iff_eq, beq_iff_eq] at h
      obtain ⟨he, hcs⟩ := h
      refine List.forall_mem_cons.mpr ⟨by rcases he with rfl | rfl <;> decide, ?_⟩
      split at hcs
      · exact List.forall_mem_cons.mpr ⟨by decide, isNumberChar_of_isDigits hcs⟩
      · exact List.forall_mem_cons.mpr ⟨by decide, isNumberChar_of_isDigits hcs⟩
      · exact isNumberChar_of_isDigits hcs

theorem isNumberChar_of_isFraction {cs : List Char} (h : isFraction cs = true) :
    ∀ c ∈ cs, isNumberChar c = true := by
  unfold isFraction at h
  split at h
  · next cs =>
    rw [Bool.and_eq_true, Bool.or_eq_true] at h
    obtain ⟨hdigits, hrest⟩ := h
    refine List.forall_mem_cons.mpr ⟨by decide, ?_⟩
    rw [← List.takeWhile_append_dropWhile (p := Char.isDigit) (l := cs)]
    refine List.forall_mem_append.mpr ⟨isNumberChar_of_isDigits hdigits, ?_⟩
    rcases hrest with hnil | hexp
    · rw [List.isEmpty_iff.mp hnil]
      exact fun c hc => absurd hc List.not_mem_nil
    · exact isNumberChar_of_isExponent hexp
  · exact isNumberChar_of_isExponent h

theorem isNumberChar_of_unsigned {cs : List Char}
    (h : ∀ c ∈ (unsigned cs).2, isNumberChar c = true) :
    ∀ c ∈ cs, isNumberChar c = true := by
  unfold unsigned at h
  split at h
  · exact List.forall_mem_cons.mpr ⟨by decide, h⟩
  · exact h

theorem isNumberChar_of_isFloatLiteral {cs : List Char} (h : isFloatLiteral cs = true) :
    ∀ c ∈ cs, isNumberChar c = true := by
  rw [isFloatLiteral, Bool.and_eq_true, isIntPart, Bool.and_eq_true] at h
  apply isNumberChar_of_unsigned
  rw [← List.takeWhile_append_dropWhile (p := Char.isDigit) (l := (unsigned cs).2)]
  exact List.forall_mem_append.mpr
    ⟨isNumberChar_of_isDigits h.1.1, isNumberChar_of_isFraction h.2⟩

/-- The number is taken up to the first character that is in no number. -/
theorem reads_scanNumber {cs : List Char} (h : ∀ c ∈ cs, isNumberChar c = true) :
    scanNumber.Reads (Scan.Ahead isNumberChar) cs (numberOf cs) := by
  intro rest hrest
  rw [scanNumber, Scan.reads_span h rest hrest]
  rfl

theorem reads_float {r : String} (h : isFloatLiteral r.toList = true) :
    scanNumber.Reads (Scan.Ahead isNumberChar) r.toList (some (.float r)) := by
  have hnumber : numberOf r.toList = some (.float r) := by
    rw [numberOf, if_pos h, String.ofList_toList]
  rw [← hnumber]
  exact reads_scanNumber (isNumberChar_of_isFloatLiteral h)

/-- The digits of a number begin with no zero, unless it is 0. -/
theorem isIntPart_toDigits (n : Nat) : isIntPart (Nat.toDigits 10 n) = true := by
  have hdigits : isDigits (Nat.toDigits 10 n) = true := by
    rw [isDigits, Bool.and_eq_true, List.all_eq_true]
    refine ⟨by simp [Nat.toDigits_ne_nil], fun c hc => ?_⟩
    exact Nat.isDigit_of_mem_toDigits (by omega) (by omega) hc
  have hhead : 0 < n → (Nat.toDigits 10 n).head? ≠ some '0' := by
    clear hdigits
    induction n using Nat.strongRecOn with
    | ind n ih =>
        intro hn
        by_cases hlt : n < 10
        · rw [Nat.toDigits_of_lt_base hlt]
          simp [Nat.digitChar_eq_zero]
          omega
        · rw [Nat.toDigits_of_base_le (by omega) (by omega), List.head?_append]
          have hdiv := ih (n / 10) (by omega) (by omega)
          cases hd : (Nat.toDigits 10 (n / 10)).head? with
          | none => exact absurd (List.head?_eq_none_iff.mp hd) Nat.toDigits_ne_nil
          | some c =>
              rw [hd] at hdiv
              simpa using hdiv
  rw [isIntPart, hdigits, Bool.true_and, Bool.or_eq_true]
  rcases Nat.eq_zero_or_pos n with rfl | hn
  · exact .inl rfl
  · exact .inr (by simpa using hhead hn)

/-- Digits alone are no float. -/
theorem numberOf_digits {cs ds : List Char} {negative : Bool} (hcs : unsigned cs = (negative, ds))
    (hds : isIntPart ds = true) :
    numberOf cs = some (.int (if negative then -(Nat.ofDigitChars 10 ds 0 : Nat)
      else (Nat.ofDigitChars 10 ds 0 : Nat))) := by
  have hall : ∀ c ∈ ds, c.isDigit = true := by
    rw [isIntPart, Bool.and_eq_true, isDigits, Bool.and_eq_true, List.all_eq_true] at hds
    exact hds.1.2
  have hrest : ds.dropWhile Char.isDigit = [] := List.dropWhile_eq_nil_iff.mpr hall
  have hfloat : isFloatLiteral cs = false := by
    rw [isFloatLiteral, hcs, hrest]
    simp [isFraction, isExponent]
  rw [numberOf, hfloat, hcs]
  simp [hds]

theorem unsigned_of_isDigit {cs : List Char} (h : ∀ c ∈ cs, c.isDigit = true) :
    unsigned cs = (false, cs) := by
  unfold unsigned
  split
  · exact absurd (h '-' List.mem_cons_self) (by decide)
  · rfl

theorem toList_toString (i : Int) : (toString i).toList =
    if 0 ≤ i then Nat.toDigits 10 i.toNat else '-' :: Nat.toDigits 10 (-i).toNat := by
  rw [Int.toString_eq_repr, Int.repr_eq_if]
  split
  · exact Nat.toList_repr
  · rw [String.toList_append, Nat.toList_repr]
    rfl

theorem reads_int (i : Int) :
    scanNumber.Reads (Scan.Ahead isNumberChar) (toString i).toList (some (.int i)) := by
  have hdigits : ∀ n, ∀ c ∈ Nat.toDigits 10 n, c.isDigit = true := fun n c hc =>
    Nat.isDigit_of_mem_toDigits (by omega) (by omega) hc
  have hread : ∀ {cs : List Char} {negative : Bool} {n : Nat},
      unsigned cs = (negative, Nat.toDigits 10 n) →
      scanNumber.Reads (Scan.Ahead isNumberChar) cs
        (some (.int (if negative then -(n : Int) else n))) := by
    intro cs negative n hcs
    have hnumber := numberOf_digits hcs (isIntPart_toDigits n)
    rw [Nat.ofDigitChars_ten_toDigits] at hnumber
    rw [← hnumber]
    apply reads_scanNumber
    apply isNumberChar_of_unsigned
    rw [hcs]
    exact fun c hc => isNumberChar_of_isDigit (hdigits n c hc)
  rw [toList_toString]
  split
  · next hi =>
    have h := hread (unsigned_of_isDigit (hdigits i.toNat))
    simpa [Int.toNat_of_nonneg hi] using h
  · next hi =>
    have hminus : unsigned ('-' :: Nat.toDigits 10 (-i).toNat) =
        (true, Nat.toDigits 10 (-i).toNat) := rfl
    have h := hread hminus
    have hn : -((-i).toNat : Int) = i := by omega
    rwa [if_pos rfl, hn] at h

end AgentProtocol

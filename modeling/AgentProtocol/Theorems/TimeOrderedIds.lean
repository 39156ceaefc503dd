import AgentProtocol.Ids

/-!
# Ids in the order of time (`uuid7`)

An id shows the time it was made at, its version and its variant in fixed places, ids of
different times are ordered as the times are, and two ids are the same only when the time
and all the random bits in them are.
-/

namespace AgentProtocol

/-- The value of a hex digit. -/
def hexValue (c : Char) : Nat := if c.isDigit then c.toNat - 48 else c.toNat - 87

/-- `int(s, 16)` -/
def fromHex (s : List Char) : Nat := Numeral.value 16 (s.map hexValue)

/-- The text is an id made at this time: 32 lowercase hex digits, the time in the first 12,
then the version nibble, and the variant in the top bits of the 17th. -/
structure OfTime (id : String) (timestampMs : Nat) : Prop where
  length : id.toList.length = 32
  digits : ∀ c ∈ id.toList, c ∈ "0123456789abcdef".toList
  time : fromHex (id.toList.take 12) = timestampMs
  version : (id.toList[12]?).map hexValue = some 0b0111
  «variant» : (id.toList[16]?).map (fun c => hexValue c / 4) = some 0b10

/-! ## Hex digits -/

theorem digitChar_mem : ∀ d < 16, d.digitChar ∈ "0123456789abcdef".toList := by decide

theorem hexValue_digitChar : ∀ d < 16, hexValue d.digitChar = d := by decide

theorem digitChar_lt : ∀ d < 16, ∀ e < 16, (d.digitChar < e.digitChar ↔ d < e) := by decide

theorem map_hexValue {ds : List Nat} (h : ∀ d ∈ ds, d < 16) :
    (ds.map Nat.digitChar).map hexValue = ds := by
  have hid : ds.map (hexValue ∘ Nat.digitChar) = ds.map id := by
    apply List.map_congr_left
    intro d hd
    exact hexValue_digitChar d (h d hd)
  rw [List.map_map, hid, List.map_id]

/-- Digits are ordered as text as they are as numbers. -/
theorem map_digitChar_lt {xs ys : List Nat} (hx : ∀ d ∈ xs, d < 16) (hy : ∀ d ∈ ys, d < 16) :
    xs.map Nat.digitChar < ys.map Nat.digitChar ↔ xs < ys := by
  induction xs generalizing ys with
  | nil => cases ys <;> simp
  | cons x xs ih =>
      cases ys with
      | nil => simp
      | cons y ys =>
          rw [List.forall_mem_cons] at hx hy
          have hinj : x.digitChar = y.digitChar ↔ x = y := by
            constructor
            · intro h
              rw [← hexValue_digitChar x hx.1, h, hexValue_digitChar y hy.1]
            · exact congrArg _
          simp only [List.map_cons, List.cons_lt_cons_iff, digitChar_lt x hx.1 y hy.1, hinj,
            ih hx.2 hy.2]

/-- The digits of an id. -/
def idDigits (n : Nat) : List Nat := Numeral.numeral 16 32 n

theorem idDigits_lt (n : Nat) : ∀ d ∈ idDigits n, d < 16 := fun _ hd =>
  Numeral.lt_of_mem_numeral (by decide) hd

theorem hex32_toList {n : Nat} (h : n < 2 ^ 128) :
    (hex32 n).toList = (idDigits n).map Nat.digitChar := by
  rw [hex32, String.toList_ofList]
  exact Numeral.leftpad_toDigits (by decide) (by omega) (by decide)

theorem hex32_lt_iff {m n : Nat} (hm : m < 2 ^ 128) (hn : n < 2 ^ 128) :
    hex32 m < hex32 n ↔ m < n := by
  have hvm : Numeral.value 16 (idDigits m) = m := Numeral.value_numeral_of_lt (by omega)
  have hvn : Numeral.value 16 (idDigits n) = n := Numeral.value_numeral_of_lt (by omega)
  have hlen : (idDigits m).length = (idDigits n).length := by simp [idDigits]
  show (hex32 m).toList < (hex32 n).toList ↔ m < n
  rw [hex32_toList hm, hex32_toList hn, map_digitChar_lt (idDigits_lt m) (idDigits_lt n),
    Numeral.lt_iff_value (by decide) hlen (idDigits_lt m) (idDigits_lt n), hvm, hvn]

theorem hex32_inj {m n : Nat} (hm : m < 2 ^ 128) (hn : n < 2 ^ 128) :
    hex32 m = hex32 n ↔ m = n := by
  constructor
  · intro h
    have hlt := hex32_lt_iff hm hn
    have hgt := hex32_lt_iff hn hm
    rw [h] at hlt hgt
    have hle : ¬m < n := fun hmn => String.lt_irrefl _ (hlt.mpr hmn)
    have hge : ¬n < m := fun hnm => String.lt_irrefl _ (hgt.mpr hnm)
    omega
  · exact congrArg _

/-! ## The fields of an id -/

theorem usedBits_lt (raw : Vector UInt8 16) : usedBits raw < 2 ^ 74 := by
  have := lastBytes_lt raw
  unfold usedBits
  omega

theorem idNumber_lt (raw : Vector UInt8 16) (timestampMs : Nat) :
    idNumber raw timestampMs < 2 ^ 128 := by
  have := lastBytes_lt raw
  unfold idNumber
  omega

/-- The time stands above all the rest. -/
theorem idNumber_div (raw : Vector UInt8 16) {timestampMs : Nat} (h : timestampMs < 2 ^ 48) :
    idNumber raw timestampMs / 2 ^ 80 = timestampMs := by
  have := lastBytes_lt raw
  unfold idNumber
  omega

theorem idNumber_inj (raw raw' : Vector UInt8 16) {timestampMs timestampMs' : Nat}
    (h : timestampMs < 2 ^ 48) (h' : timestampMs' < 2 ^ 48) :
    idNumber raw timestampMs = idNumber raw' timestampMs' ↔
      timestampMs = timestampMs' ∧ usedBits raw = usedBits raw' := by
  have := lastBytes_lt raw
  have := lastBytes_lt raw'
  unfold idNumber usedBits
  omega

theorem idNumber_version (raw : Vector UInt8 16) (timestampMs : Nat) :
    idNumber raw timestampMs / 16 ^ 19 % 16 = 7 := by
  have := lastBytes_lt raw
  unfold idNumber
  omega

theorem idNumber_variant (raw : Vector UInt8 16) (timestampMs : Nat) :
    idNumber raw timestampMs / 16 ^ 15 % 16 / 4 = 2 := by
  have := lastBytes_lt raw
  unfold idNumber
  omega

/-- The digits of an id by field: the time, the version, 12 bits, the variant with two more,
and the rest. -/
theorem idDigits_split (n : Nat) :
    idDigits n = Numeral.numeral 16 12 (n / 16 ^ 20) ++ (n / 16 ^ 19 % 16 ::
      (Numeral.numeral 16 3 (n / 16 ^ 16) ++ (n / 16 ^ 15 % 16 :: Numeral.numeral 16 15 n))) := by
  have h1 := Numeral.numeral_append 16 12 20 n
  have h2 := Numeral.numeral_append 16 1 19 n
  have h3 := Numeral.numeral_append 16 3 16 n
  have h4 := Numeral.numeral_append 16 1 15 n
  rw [Numeral.numeral_one, List.singleton_append] at h2 h4
  rw [idDigits, h1, h2, h3, h4]

theorem idDigits_take (n : Nat) :
    (idDigits n).take 12 = Numeral.numeral 16 12 (n / 16 ^ 20) := by
  rw [idDigits_split]
  apply List.take_left'
  exact Numeral.length_numeral 16 12 _

theorem idDigits_getElem?_version (n : Nat) : (idDigits n)[12]? = some (n / 16 ^ 19 % 16) := by
  have hlen := Numeral.length_numeral 16 12 (n / 16 ^ 20)
  rw [idDigits_split, List.getElem?_append_right (by omega), hlen]
  rfl

theorem idDigits_getElem?_variant (n : Nat) : (idDigits n)[16]? = some (n / 16 ^ 15 % 16) := by
  have hlen := Numeral.length_numeral 16 12 (n / 16 ^ 20)
  have hlen' := Numeral.length_numeral 16 3 (n / 16 ^ 16)
  rw [idDigits_split, List.getElem?_append_right (by omega), hlen, List.getElem?_cons_succ,
    List.getElem?_append_right (by omega), hlen']
  rfl

theorem ofTime_hex32 (raw : Vector UInt8 16) {timestampMs : Nat} (h : timestampMs < 2 ^ 48) :
    OfTime (hex32 (idNumber raw timestampMs)) timestampMs := by
  have hlist := hex32_toList (idNumber_lt raw timestampMs)
  have htime := idNumber_div raw h
  have hversion := idNumber_version raw timestampMs
  have hvariant := idNumber_variant raw timestampMs
  generalize idNumber raw timestampMs = n at *
  have hdigits := idDigits_lt n
  constructor
  · rw [hlist, List.length_map]
    exact Numeral.length_numeral 16 32 n
  · intro c hc
    rw [hlist] at hc
    obtain ⟨d, hd, rfl⟩ := List.mem_map.mp hc
    exact digitChar_mem d (hdigits d hd)
  · have hfield : n / 16 ^ 20 = timestampMs := by omega
    rw [fromHex, hlist, ← List.map_take, idDigits_take, hfield, map_hexValue,
      Numeral.value_numeral_of_lt]
    · omega
    · exact fun d hd => Numeral.lt_of_mem_numeral (by decide) hd
  · rw [hlist, List.getElem?_map, idDigits_getElem?_version, hversion]
    decide
  · rw [hlist, List.getElem?_map, idDigits_getElem?_variant, Option.map_some, Option.map_some,
      hexValue_digitChar _ (Nat.mod_lt _ (by decide)), hvariant]

/-! ## The theorem -/

/-- Two ids, of any random bytes and any times: each is well formed, they compare as their
times do, and they are the same only when the times and the used random bits are. -/
theorem uuid7_ordered (raw raw' : Vector UInt8 16) (timestampMs timestampMs' : Nat)
    (h : timestampMs < 2 ^ 48) (h' : timestampMs' < 2 ^ 48) :
    ∃ id id', uuid7 raw timestampMs = .ok id ∧ uuid7 raw' timestampMs' = .ok id' ∧
      OfTime id timestampMs ∧ OfTime id' timestampMs' ∧
      (timestampMs ≠ timestampMs' → (id < id' ↔ timestampMs < timestampMs')) ∧
      (id = id' ↔ timestampMs = timestampMs' ∧ usedBits raw = usedBits raw') ∧
      usedBits raw < 2 ^ 74 := by
  have hlt := idNumber_lt raw timestampMs
  have hlt' := idNumber_lt raw' timestampMs'
  refine ⟨_, _, uuid7_eq raw timestampMs, uuid7_eq raw' timestampMs', ofTime_hex32 raw h,
    ofTime_hex32 raw' h', ?_, ?_, usedBits_lt raw⟩
  · -- the time is the top of the number, so it decides where it differs
    intro hne
    have hdiv := idNumber_div raw h
    have hdiv' := idNumber_div raw' h'
    rw [hex32_lt_iff hlt hlt']
    omega
  · rw [hex32_inj hlt hlt', idNumber_inj raw raw' h h']

/-- The ids of two readings one millisecond apart, with random bits that are all set and all
clear. -/
theorem uuid7_ordered_apart :
    ∃ id id', uuid7 (Vector.replicate 16 255) 1700000000000 = .ok id ∧
      uuid7 (Vector.replicate 16 0) 1700000000001 = .ok id' ∧ id < id' ∧ id ≠ id' := by
  obtain ⟨id, id', hid, hid', -, -, horder, hsame, -⟩ :=
    uuid7_ordered (Vector.replicate 16 255) (Vector.replicate 16 0) 1700000000000 1700000000001
      (by decide) (by decide)
  refine ⟨id, id', hid, hid', (horder (by decide)).mpr (by decide), fun heq => ?_⟩
  have htimes := (hsame.mp heq).1
  omega

end AgentProtocol

import AgentProtocol.Value
import AgentProtocol.Lib.Numeral

/-!
# Ids (`uuid7.py`)

`uuid7` writes the clock reading and 74 of 128 random bits into 16 bytes, between them the
version and the variant of the id. The random bytes and the clock reading are arguments.

`uuid7_eq` says which number the hex digits of an id stand for; everything else about ids
is read off it.
-/

namespace AgentProtocol

/-- `int.from_bytes(bs, "big")` -/
def fromBytes (bs : List UInt8) : Nat := Numeral.value 256 (bs.map UInt8.toNat)

/-- `n.to_bytes(length, "big")` -/
def toBytes (n length : Nat) : Except PyExc (List UInt8) :=
  if n < 256 ^ length then .ok ((Numeral.numeral 256 length n).map UInt8.ofNat)
  else .error ⟨"OverflowError", "int too big to convert"⟩

/-- `bs[i:j]` -/
def slice (bs : List UInt8) (i j : Nat) : List UInt8 := (bs.take j).drop i

/-- `"%032x" % n` -/
def hex32 (n : Nat) : String := .ofList (List.leftpad 32 '0' (Nat.toDigits 16 n))

/-- `uuid.UUID(bytes=bs).hex` -/
def uuidHex (bs : List UInt8) : Except PyExc String :=
  if bs.length = 16 then .ok (hex32 (fromBytes bs))
  else .error ⟨"ValueError", "bytes is not a 16-char string"⟩

/-- An id from 16 random bytes, at this clock reading in ms. -/
def uuid7 (raw : Vector UInt8 16) (timestampMs : Nat) : Except PyExc String := do
  let nowMs := timestampMs &&& ((1 <<< 48) - 1)
  let time ← toBytes nowMs 6
  let version ← toBytes (0b0111 <<< 12 ||| (fromBytes (slice raw.toList 6 8) &&& 0x0FFF)) 2
  let «variant» ← toBytes (0b10 <<< 14 ||| (fromBytes (slice raw.toList 8 10) &&& 0x3FFF)) 2
  uuidHex (time ++ version ++ «variant» ++ raw.toList.drop 10)

/-! ## Bytes -/

theorem fromBytes_append (xs ys : List UInt8) :
    fromBytes (xs ++ ys) = fromBytes xs * 256 ^ ys.length + fromBytes ys := by
  simp [fromBytes, Numeral.value_append]

theorem fromBytes_lt (bs : List UInt8) : fromBytes bs < 256 ^ bs.length := by
  have hdigits : ∀ d ∈ bs.map UInt8.toNat, d < 256 := by
    intro d hd
    obtain ⟨byte, -, rfl⟩ := List.mem_map.mp hd
    exact byte.toNat_lt
  simpa [fromBytes] using Numeral.value_lt (by decide) hdigits

theorem toBytes_of_lt {n : Nat} (length : Nat) (h : n < 256 ^ length) :
    ∃ bs, toBytes n length = .ok bs ∧ bs.length = length ∧ fromBytes bs = n := by
  refine ⟨_, if_pos h, by simp, ?_⟩
  have hback : (Numeral.numeral 256 length n).map (UInt8.toNat ∘ UInt8.ofNat) =
      (Numeral.numeral 256 length n).map id := by
    apply List.map_congr_left
    intro d hd
    have hlt := Numeral.lt_of_mem_numeral (by decide) hd
    simp only [Function.comp_apply, UInt8.toNat_ofNat', id_eq]
    omega
  rw [fromBytes, List.map_map, hback, List.map_id, Numeral.value_numeral_of_lt h]

/-! ## The fields of an id -/

/-- The random bits that are used, as one number. -/
def usedBits (raw : Vector UInt8 16) : Nat :=
  (fromBytes (slice raw.toList 6 8) % 2 ^ 12 * 2 ^ 14 +
    fromBytes (slice raw.toList 8 10) % 2 ^ 14) * 2 ^ 48 + fromBytes (raw.toList.drop 10)

/-- The number an id stands for: time, version, 12 random bits, variant, 62 random bits. -/
def idNumber (raw : Vector UInt8 16) (timestampMs : Nat) : Nat :=
  ((timestampMs % 2 ^ 48 * 2 ^ 16 + (7 * 2 ^ 12 + fromBytes (slice raw.toList 6 8) % 2 ^ 12)) *
      2 ^ 16 + (2 * 2 ^ 14 + fromBytes (slice raw.toList 8 10) % 2 ^ 14)) * 2 ^ 48 +
    fromBytes (raw.toList.drop 10)

/-- A field of `w` bits below a stamp. -/
theorem stamp_eq (s x w : Nat) : s <<< w ||| (x &&& (2 ^ w - 1)) = s * 2 ^ w + x % 2 ^ w := by
  rw [Nat.and_two_pow_sub_one_eq_mod, ← Nat.shiftLeft_add_eq_or_of_lt (Nat.mod_lt _ (by simp)),
    Nat.shiftLeft_eq]

theorem lastBytes_lt (raw : Vector UInt8 16) : fromBytes (raw.toList.drop 10) < 2 ^ 48 := by
  have h := fromBytes_lt (raw.toList.drop 10)
  simpa using h

/-- The id of these bytes at this time. -/
theorem uuid7_eq (raw : Vector UInt8 16) (timestampMs : Nat) :
    uuid7 raw timestampMs = .ok (hex32 (idNumber raw timestampMs)) := by
  have hms : timestampMs &&& ((1 <<< 48) - 1) = timestampMs % 2 ^ 48 :=
    Nat.and_two_pow_sub_one_eq_mod timestampMs 48
  have hversion : 0b0111 <<< 12 ||| (fromBytes (slice raw.toList 6 8) &&& 0x0FFF) = _ :=
    stamp_eq 7 (fromBytes (slice raw.toList 6 8)) 12
  have hvariant : 0b10 <<< 14 ||| (fromBytes (slice raw.toList 8 10) &&& 0x3FFF) = _ :=
    stamp_eq 2 (fromBytes (slice raw.toList 8 10)) 14
  obtain ⟨time, htime, hlen₁, hval₁⟩ := toBytes_of_lt (n := timestampMs % 2 ^ 48) 6
    (by omega)
  obtain ⟨version, hv, hlen₂, hval₂⟩ := toBytes_of_lt
    (n := 7 * 2 ^ 12 + fromBytes (slice raw.toList 6 8) % 2 ^ 12) 2 (by omega)
  obtain ⟨variant', hv', hlen₃, hval₃⟩ := toBytes_of_lt
    (n := 2 * 2 ^ 14 + fromBytes (slice raw.toList 8 10) % 2 ^ 14) 2 (by omega)
  have hlen : (time ++ version ++ variant' ++ raw.toList.drop 10).length = 16 := by
    simp [hlen₁, hlen₂, hlen₃]
  have hval : fromBytes (time ++ version ++ variant' ++ raw.toList.drop 10) =
      idNumber raw timestampMs := by
    simp [fromBytes_append, hval₁, hval₂, hval₃, hlen₂, hlen₃, idNumber]
    omega
  have huuid : uuid7 raw timestampMs =
      uuidHex (time ++ version ++ variant' ++ raw.toList.drop 10) := by
    show (toBytes _ 6 >>= _) = _
    rw [hms, htime]
    show (toBytes _ 2 >>= _) = _
    rw [hversion, hv]
    show (toBytes _ 2 >>= _) = _
    rw [hvariant, hv']
    rfl
  rw [huuid, uuidHex, if_pos hlen, hval]

end AgentProtocol

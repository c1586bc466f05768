/-! # Big-endian numerals

A list of bytes read as a number in base 256, most significant byte first, and the inverse for a
fixed number of bytes. Main statement: bytes that are read as a number are written again as they were.
-/

namespace PlcMachine.BigEndian

/-- The number whose base 256 digits are the bytes, most significant first. -/
def decode (bytes : List UInt8) : Nat := bytes.foldl (fun n b => 256 * n + b.toNat) 0

def encode : (count : Nat) → Nat → List UInt8
  | 0, _ => []
  | count + 1, n => encode count (n / 256) ++ [.ofNat n]

@[simp]
theorem length_encode (count n : Nat) : (encode count n).length = count := by
  induction count generalizing n with
  | zero => rfl
  | succ count ih => simp [encode, ih]

theorem decode_append_singleton (bytes : List UInt8) (b : UInt8) :
    decode (bytes ++ [b]) = 256 * decode bytes + b.toNat := by
  simp [decode]

theorem decode_encode_succ (count n : Nat) :
    decode (encode (count + 1) n) = 256 * decode (encode count (n / 256)) + n % 256 := by
  rw [encode, decode_append_singleton, UInt8.toNat_ofNat']

theorem encode_decode (bytes : List UInt8) : encode bytes.length (decode bytes) = bytes := by
  rw [← bytes.reverse_reverse]
  induction bytes.reverse with
  | nil => rfl
  | cons b r ih =>
    have hb := b.toNat_lt
    have hdiv : (256 * decode r.reverse + b.toNat) / 256 = decode r.reverse := by omega
    rw [List.reverse_cons, List.length_append, List.length_singleton, decode_append_singleton,
      encode, hdiv, ih]
    congr 2
    apply UInt8.toNat.inj
    rw [UInt8.toNat_ofNat']
    omega

end PlcMachine.BigEndian

/-! The variable-length integers of the binary format: seven bits a byte, least significant first, the
high bit set on all bytes but the last. Both writers give the shortest form. -/

namespace FormCompiler.Wasm.Leb128

def unsigned (n : Nat) : List UInt8 :=
  if n < 128 then [UInt8.ofNat n]
  else UInt8.ofNat (n % 128 + 128) :: unsigned (n / 128)
termination_by n

/-- The last byte also holds the sign, in its bit of weight 64. -/
def signed (z : Int) : List UInt8 :=
  if -64 ≤ z ∧ z < 64 then [UInt8.ofNat (z % 128).toNat]
  else UInt8.ofNat ((z % 128).toNat + 128) :: signed (z / 128)
termination_by z.natAbs
decreasing_by omega

end FormCompiler.Wasm.Leb128

import LsvmTools.Strings

/-! # GUIDs and their text

The text of a GUID is 32 hexadecimal digits, with dashes anywhere among them. -/
namespace LsvmTools.Guid
open Lib.ByteString

/-- `EFI_GUID`. -/
structure EfiGuid where
  data1 : Nat
  data2 : Nat
  data3 : Nat
  data4 : Bytes
deriving DecidableEq

/-- The bytes of the struct. -/
def EfiGuid.bytes (guid : EfiGuid) : Bytes :=
  enc32 guid.data1 ++ enc16 guid.data2 ++ enc16 guid.data3 ++ guid.data4

/-- `_CharToHex`, where 0xFF stands for what is no digit. -/
def charToHex (x : UInt8) : Option UInt8 :=
  if 48 ≤ x ∧ x ≤ 57 then some (x - 48)
  else if 65 ≤ x ∧ x ≤ 70 then some (10 + x - 65)
  else if 97 ≤ x ∧ x ≤ 102 then some (10 + x - 97)
  else none

/-- `TPM2X_HexStrToBinary`. -/
def hexStrToBinary : Bytes → Option Bytes
  | [] => some []
  | [_] => none
  | x :: y :: str => do
    let hi ← charToHex x
    let lo ← charToHex y
    let binary ← hexStrToBinary str
    pure ((hi <<< 4 ||| lo) :: binary)

/-- `HexStrToBinary`, with the allocation of the result. -/
def newHexStrToBinary (mem : Nat → Bool) (hexstr : Bytes) : Option Bytes :=
  if hexstr.length < 2 ∨ hexstr.length % 2 ≠ 0 then none
  else if !mem (hexstr.length / 2) then none
  else hexStrToBinary hexstr

/-- `StrToGUID`. -/
def strToGUID (mem : Nat → Bool) (str : Bytes) : Option EfiGuid :=
  if !mem (u32 (str.length + 1)) then none
  else
    let hexstr := str.filter (· ≠ 45)
    if hexstr.length ≠ 32 then none
    else do
      let p ← newHexStrToBinary mem hexstr
      let octet := fun i => (byteAt p i).toNat
      pure {
        data1 := octet 0 * 2 ^ 24 + octet 1 * 2 ^ 16 + octet 2 * 2 ^ 8 + octet 3
        data2 := octet 4 * 2 ^ 8 + octet 5
        data3 := octet 6 * 2 ^ 8 + octet 7
        data4 := (p.drop 8).take 8 }

end LsvmTools.Guid

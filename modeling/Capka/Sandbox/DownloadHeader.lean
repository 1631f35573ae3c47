import Capka.Sandbox.DownloadName

/-!
# The header of a download

`contentDisposition` names a file twice: in quoted ASCII, and in UTF-8 with every byte escaped that may not stand in an ext-value. Whatever the
name, the header is one line of printable ASCII, and who reads the second form gets the characters of the name.
-/

namespace Capka

namespace DownloadName

open Ecma

/-- `ATTR_CHAR`. -/
def isAttrChar (b : UInt8) : Bool :=
  (0x41 ≤ b && b ≤ 0x5a) || (0x61 ≤ b && b ≤ 0x7a) || (0x30 ≤ b && b ≤ 0x39) || b = 0x21 || b = 0x23 || b = 0x24 || b = 0x26 || b = 0x2b ||
    b = 0x2d || b = 0x2e || b = 0x5e || b = 0x5f || b = 0x60 || b = 0x7c || b = 0x7e

/-- A digit of `toString(16).toUpperCase()`. -/
def upperHex (d : Nat) : UInt16 := if d < 10 then UInt16.ofNat (0x30 + d) else UInt16.ofNat (0x37 + d)

/-- What `extValue` appends for a byte. -/
def extByte (b : UInt8) : Units := if isAttrChar b then [UInt16.ofNat b.toNat] else [0x25, upperHex (b.toNat / 16), upperHex (b.toNat % 16)]

def extValue (name : Units) : Units := (toUtf8 name).flatMap extByte

inductive DispositionKind
  | attachment
  | inline
  deriving Repr, DecidableEq

def DispositionKind.text : DispositionKind → Units
  | .attachment => ofString "attachment"
  | .inline => ofString "inline"

/-- `/[\x20-\x7E]/`. -/
def isPrintable (u : UInt16) : Bool := 0x20 ≤ u && u ≤ 0x7e

/-- `/[A-Za-z0-9]/`. -/
def isAlphanumeric (u : UInt16) : Bool := (0x41 ≤ u && u ≤ 0x5a) || (0x61 ≤ u && u ≤ 0x7a) || (0x30 ≤ u && u ≤ 0x39)

/-- `safeAscii`. -/
def safeAscii (filename : Units) : Units :=
  let dashed := filename.map fun u => if u = 0x2014 || u = 0x2013 || u = 0x2015 then 0x2d else u
  let visible := dashed.map fun u => if isPrintable u then u else 0x5f
  let ascii := visible.map fun u => if u = 0x22 || u = 0x5c then 0x5f else u
  if ascii.any isAlphanumeric then ascii else download

def contentDisposition (filename : Units) (kind : DispositionKind) : Units :=
  kind.text ++ ofString "; filename=\"" ++ safeAscii filename ++ ofString "\"; filename*=UTF-8''" ++ extValue filename

/-! ## Who reads the header -/

/-- The value of a digit of `upperHex`. -/
def upperHexValue (u : UInt16) : Nat := if u < 0x40 then u.toNat - 0x30 else u.toNat - 0x37

/-- The bytes an ext-value stands for. -/
def readExtValue : Units → Option (List UInt8)
  | [] => some []
  | u :: rest =>
    if u = 0x25 then
      match rest with
      | v :: w :: rest => (readExtValue rest).map (UInt8.ofNat (16 * upperHexValue v + upperHexValue w) :: ·)
      | _ => none
    else (readExtValue rest).map (UInt8.ofNat u.toNat :: ·)

/-- The quoted name, which ends at the first quotation mark, and the characters of the other one. -/
def readDisposition (kind : DispositionKind) (value : Units) : Option (Units × List Char) :=
  (value.dropPrefix? (kind.text ++ ofString "; filename=\"")).bind fun rest =>
    ((rest.dropWhile (· ≠ 0x22)).dropPrefix? (ofString "\"; filename*=UTF-8''")).bind fun ext =>
      (readExtValue ext).map fun bytes => (rest.takeWhile (· ≠ 0x22), Utf8.decodeLossy bytes)

namespace DownloadHeaderAux

theorem upperHexValue_upperHex : ∀ d < 16, upperHexValue (upperHex d) = d := by decide

theorem readExtValue_extByte (b : UInt8) (rest : Units) : readExtValue (extByte b ++ rest) = (readExtValue rest).map (b :: ·) := by
  have hlt := b.toNat_lt
  unfold extByte
  split
  · rename_i hattr
    have hunit : (UInt16.ofNat b.toNat).toNat = b.toNat := by
      rw [UInt16.toNat_ofNat']
      omega
    have hne : UInt16.ofNat b.toNat ≠ 0x25 := by
      intro h
      have hb : b = 0x25 := by
        rw [← UInt8.toNat_inj, ← hunit, h]
        rfl
      subst hb
      exact absurd hattr (by decide)
    rw [List.singleton_append]
    conv_lhs => unfold readExtValue
    rw [if_neg hne, hunit, UInt8.ofNat_toNat]
  · have hdigits : 16 * upperHexValue (upperHex (b.toNat / 16)) + upperHexValue (upperHex (b.toNat % 16)) = b.toNat := by
      rw [upperHexValue_upperHex _ (by omega), upperHexValue_upperHex _ (by omega), Nat.div_add_mod]
    simp [readExtValue, hdigits]

theorem readExtValue_flatMap (bytes : List UInt8) : readExtValue (bytes.flatMap extByte) = some bytes := by
  induction bytes with
  | nil => rfl
  | cons b bytes ih => rw [List.flatMap_cons, readExtValue_extByte, ih, Option.map_some]

theorem printable_extByte (b : UInt8) : (extByte b).all isPrintable = true := by
  have hall : ∀ n < 256, (extByte (UInt8.ofNat n)).all isPrintable = true := by decide +kernel
  simpa using hall b.toNat b.toNat_lt

/-- The quoted name has nothing that ends the quotation or the line. -/
theorem mem_safeAscii {filename : Units} {u : UInt16} (h : u ∈ safeAscii filename) : isPrintable u = true ∧ u ≠ 0x22 ∧ u ≠ 0x5c := by
  unfold safeAscii at h
  dsimp only at h
  split at h
  · obtain ⟨v, hv, rfl⟩ := List.mem_map.mp h
    obtain ⟨w, -, rfl⟩ := List.mem_map.mp hv
    split_ifs with hprint hquote hquote
    · exact ⟨rfl, by decide, by decide⟩
    · simp only [Bool.or_eq_true, decide_eq_true_eq, not_or] at hquote
      exact ⟨hprint, hquote⟩
    · exact ⟨rfl, by decide, by decide⟩
    · exact ⟨rfl, by decide, by decide⟩
  · have hall : download.all (fun u => isPrintable u && u ≠ 0x22 && u ≠ 0x5c) = true := by decide +kernel
    simpa [and_assoc] using List.all_eq_true.mp hall u h

end DownloadHeaderAux

open DownloadHeaderAux

/-- **The header of a download is one line of printable ASCII, and is read as the name**: the quoted name ends where it was closed and
escapes nothing, and the other one has the characters of the file name. -/
theorem contentDisposition_read (filename : Units) (kind : DispositionKind) :
    (contentDisposition filename kind).all isPrintable = true ∧ 0x5c ∉ safeAscii filename ∧
      readDisposition kind (contentDisposition filename kind) = some (safeAscii filename, scalars filename) := by
  refine ⟨?_, fun h => (mem_safeAscii h).2.2 rfl, ?_⟩
  · have hascii : (safeAscii filename).all isPrintable = true := List.all_eq_true.mpr fun u hu => (mem_safeAscii hu).1
    have hext : (extValue filename).all isPrintable = true := by
      rw [extValue, List.all_flatMap, List.all_eq_true]
      exact fun b _ => printable_extByte b
    have hkind : kind.text.all isPrintable = true := by cases kind <;> decide +kernel
    have hopen : (ofString "; filename=\"").all isPrintable = true := by decide +kernel
    have hclose : (ofString "\"; filename*=UTF-8''").all isPrintable = true := by decide +kernel
    simp [contentDisposition, hascii, hext, hkind, hopen, hclose]
  · have hquote : ∀ u ∈ safeAscii filename, decide (u ≠ 0x22) = true := fun u hu => decide_eq_true (mem_safeAscii hu).2.1
    have hmark : ofString "\"; filename*=UTF-8''" = 0x22 :: ofString "; filename*=UTF-8''" := rfl
    have hrest : contentDisposition filename kind = (kind.text ++ ofString "; filename=\"") ++
        (safeAscii filename ++ (ofString "\"; filename*=UTF-8''" ++ extValue filename)) := by
      simp only [contentDisposition, List.append_assoc]
    rw [readDisposition, hrest, List.dropPrefix?_append_of_beq _ BEq.rfl, Option.bind_some, List.dropWhile_append_of_pos hquote,
      List.takeWhile_append_of_pos hquote]
    have hclosed : (ofString "\"; filename*=UTF-8''" ++ extValue filename).dropWhile (· ≠ 0x22) =
        ofString "\"; filename*=UTF-8''" ++ extValue filename := by
      rw [hmark, List.cons_append, List.dropWhile_cons_of_neg (by simp)]
    have hend : (ofString "\"; filename*=UTF-8''" ++ extValue filename).takeWhile (· ≠ 0x22) = [] := by
      rw [hmark, List.cons_append, List.takeWhile_cons_of_neg (by simp)]
    rw [hclosed, hend, List.append_nil, List.dropPrefix?_append_of_beq _ BEq.rfl, Option.bind_some, extValue, readExtValue_flatMap,
      Option.map_some, toUtf8, Utf8.decodeLossy_encode]

end DownloadName

end Capka

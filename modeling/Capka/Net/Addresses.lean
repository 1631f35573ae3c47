import Mathlib

/-!
# Classification of addresses

`isBlockedAddress` decides whether a connection to an address may be opened. An IPv6 literal is read as its 16 bytes and an IPv4
address carried inside one is judged by the rules for IPv4. Literals are read here as Node's `isIPv4` and `isIPv6` read them, on
lists of characters; a zone identifier after `%` is accepted there, and the bytes are read with it still in place.
-/

namespace Capka.Net

/-- The parts of a text between the occurrences of a separator. -/
def splitAt (sep : Char) : List Char → List (List Char)
  | [] => [[]]
  | c :: cs =>
    match splitAt sep cs with
    | [] => [[c]]
    | part :: parts => if c = sep then [] :: part :: parts else (c :: part) :: parts

/-- The value of a hexadecimal digit. -/
def hexDigit (c : Char) : Option Nat :=
  if c.isDigit then some (c.toNat - '0'.toNat)
  else if 'a' ≤ c ∧ c ≤ 'f' then some (c.toNat - 'a'.toNat + 10)
  else if 'A' ≤ c ∧ c ≤ 'F' then some (c.toNat - 'A'.toNat + 10)
  else none

/-- The value of a group of hexadecimal digits. -/
def hexValue (g : List Char) : Option Nat :=
  if g.isEmpty then none
  else g.foldl (fun acc c => acc.bind fun n => (hexDigit c).map (16 * n + ·)) (some 0)

/-- The value of a decimal octet, spelled without leading zeros. -/
def octet (g : List Char) : Option Nat :=
  if g.isEmpty || !g.all Char.isDigit || (1 < g.length && g.head? == some '0') then none
  else
    let n := g.foldl (fun acc c => 10 * acc + (c.toNat - '0'.toNat)) 0
    if n ≤ 255 then some n else none

/-- The four octets of an IPv4 literal. -/
def ipv4Octets (s : List Char) : Option (List Nat) :=
  match splitAt '.' s with
  | [a, b, c, d] =>
    match octet a, octet b, octet c, octet d with
    | some a, some b, some c, some d => some [a, b, c, d]
    | _, _, _, _ => none
  | _ => none

/-- One group of an IPv6 literal: one to four hexadecimal digits. -/
def groupWord (g : List Char) : Option Nat := if g.length ≤ 4 then hexValue g else none

/-- The words of one side of an IPv6 literal; a dotted quad, allowed in the last place only, is two words. -/
def sideWords (quadAllowed : Bool) (part : List Char) : Option (List Nat) :=
  if part.isEmpty then some []
  else
    let groups := splitAt ':' part
    match groups.getLast? with
    | none => some []
    | some last =>
      if last.contains '.' then
        if quadAllowed then
          match groups.dropLast.mapM groupWord, ipv4Octets last with
          | some words, some [a, b, c, d] => some (words ++ [a <<< 8 ||| b, c <<< 8 ||| d])
          | _, _ => none
        else none
      else groups.mapM groupWord

/-- The text before the first `::` and, where there is one, the text after it. -/
def cutAtDouble : List Char → List Char × Option (List Char)
  | [] => ([], none)
  | [c] => ([c], none)
  | c :: c' :: cs =>
    if c = ':' ∧ c' = ':' then ([], some cs)
    else ((c :: (cutAtDouble (c' :: cs)).1), (cutAtDouble (c' :: cs)).2)

/-- The literal without its zone identifier; an empty or ill-formed zone makes it no literal. -/
def withoutZone (s : List Char) : Option (List Char) :=
  let body := s.takeWhile (· ≠ '%')
  match s.dropWhile (· ≠ '%') with
  | [] => some body
  | _ :: zone =>
    if !zone.isEmpty && zone.all (fun c => c.isAlphanum || c == '-' || c == '.' || c == ':') then some body else none

/-- The eight words of an IPv6 literal; `::` stands for at least one word. -/
def ipv6Words (s : List Char) : Option (List Nat) :=
  (withoutZone s).bind fun body =>
    match cutAtDouble body with
    | (head, none) => (sideWords true head).filter fun words => words.length = 8
    | (head, some tail) =>
      match sideWords false head, sideWords true tail with
      | some left, some right =>
        if left.length + right.length ≤ 7 then some (left ++ List.replicate (8 - left.length - right.length) 0 ++ right) else none
      | _, _ => none

def isIPv4 (s : List Char) : Bool := (ipv4Octets s).isSome

def isIPv6 (s : List Char) : Bool := (ipv6Words s).isSome

/-- The value of the hexadecimal digits that a text begins with, after `0x` if there is one. -/
def leadingHex : List Char → Option Nat
  | '0' :: 'x' :: r | '0' :: 'X' :: r => hexValue (r.takeWhile fun c => (hexDigit c).isSome)
  | r => hexValue (r.takeWhile fun c => (hexDigit c).isSome)

/-- `parseInt(g, 16)`; `none` is no number. -/
def parseInt16 : List Char → Option Int
  | '-' :: r => (leadingHex r).map fun n => -n
  | '+' :: r => (leadingHex r).map fun n => n
  | r => (leadingHex r).map fun n => n

/-- `Number(part)`, where a missing part and one of other than digits, which only a zone identifier has, is none and counts as zero. -/
def quadPart (quad : List (List Char)) (i : Nat) : Nat :=
  match quad[i]? with
  | some part => if part.all Char.isDigit then part.foldl (fun acc c => 10 * acc + (c.toNat - '0'.toNat)) 0 else 0
  | none => 0

/-- `(a << 8) | b`, on 32 bits. -/
def quadWord (a b : Nat) : Int := (BitVec.ofNat 32 a <<< 8 ||| BitVec.ofNat 32 b).toInt

/-- The words of one side of `::`; a trailing dotted quad is two. -/
def toWords (part : List Char) : List (Option Int) :=
  if part.isEmpty then []
  else
    let groups := splitAt ':' part
    let last := groups.getLast?.getD []
    if last.contains '.' then
      let quad := splitAt '.' last
      groups.dropLast.map parseInt16 ++ [some (quadWord (quadPart quad 0) (quadPart quad 1)), some (quadWord (quadPart quad 2) (quadPart quad 3))]
    else groups.map parseInt16

/-- A word is an integer of 16 bits. -/
def checkWord : Option Int → Option Nat
  | some w => if 0 ≤ w ∧ w ≤ 0xffff then some w.toNat else none
  | none => none

/-- An IPv6 literal as its 16 bytes. -/
def ipv6Bytes (s : List Char) : Option (List Nat) :=
  if !isIPv6 s then none
  else
    let parts := cutAtDouble s
    let left := toWords parts.1
    let right := parts.2.elim [] fun tail => toWords (cutAtDouble tail).1
    if parts.2.isNone && left.length ≠ 8 then none
    -- An array of negative length throws.
    else if 8 < left.length + right.length then none
    else
      ((left ++ List.replicate (8 - left.length - right.length) (some 0) ++ right).mapM checkWord).map fun (words : List Nat) =>
        words.flatMap fun w => [w >>> 8, w &&& 0xff]

/-- The bytes `i` to `j` are zero. -/
def zeros (b : List Nat) (i j : Nat) : Bool := ((b.take j).drop i).all (· == 0)

/-- RFC 8215's local-use NAT64 prefix. -/
def isLocalUseNat64 (b : List Nat) : Bool := b.take 6 == [0x00, 0x64, 0xff, 0x9b, 0x00, 0x01]

/-- The octets of the IPv4 address carried inside an IPv6 one. -/
def embeddedIPv4 (b : List Nat) : Option (List Nat) :=
  if zeros b 0 10 && b[10]? == some 0xff && b[11]? == some 0xff then some (b.drop 12)
  else if b.take 4 == [0x00, 0x64, 0xff, 0x9b] && zeros b 4 12 then some (b.drop 12)
  else if isLocalUseNat64 b && b[8]? == some 0 then some [b.getD 6 0, b.getD 7 0, b.getD 9 0, b.getD 10 0]
  else if zeros b 0 12 && !(zeros b 12 15 && b.getD 15 0 ≤ 1) then some (b.drop 12)
  else none

/-- The rules for an IPv4 address. -/
def blockedIPv4 (o : List Nat) (blockPrivate : Bool) : Bool :=
  let o₀ := o.getD 0 0
  let o₁ := o.getD 1 0
  if o₀ == 0 then true
  else if o₀ == 169 && o₁ == 254 then true
  else if o₀ ≥ 224 then true
  else if !blockPrivate then false
  else if o₀ == 127 then true
  else if o₀ == 10 then true
  else if o₀ == 172 && o₁ ≥ 16 && o₁ ≤ 31 then true
  else if o₀ == 192 && o₁ == 168 then true
  else o₀ == 100 && o₁ ≥ 64 && o₁ ≤ 127

/-- The rules for an IPv6 address that carries no IPv4 address. -/
def blockedIPv6 (b : List Nat) (blockPrivate : Bool) : Bool :=
  if zeros b 0 16 then true
  else if b.getD 0 0 == 0xfe && b.getD 1 0 &&& 0xc0 == 0x80 then true
  else if b.getD 0 0 == 0xff then true
  else if isLocalUseNat64 b then true
  else if !blockPrivate then false
  else if zeros b 0 15 && b.getD 15 0 == 1 then true
  else b.getD 0 0 &&& 0xfe == 0xfc

/-- Whether a connection to the address is refused. A text that is no address is refused. -/
def isBlockedAddress (ip : String) (blockPrivate : Bool) : Bool :=
  match ipv6Bytes ip.toList with
  | some b =>
    match embeddedIPv4 b with
    | some o => blockedIPv4 o blockPrivate
    | none => blockedIPv6 b blockPrivate
  | none =>
    match ipv4Octets ip.toList with
    | some o => blockedIPv4 o blockPrivate
    | none => true

theorem isBlockedAddress_mono {ip : String} (h : isBlockedAddress ip false = true) (blockPrivate : Bool) :
    isBlockedAddress ip blockPrivate = true := by
  have h4 : ∀ o, blockedIPv4 o false = true → blockedIPv4 o blockPrivate = true := by
    intro o ho
    unfold blockedIPv4 at ho ⊢
    simp only at ho ⊢
    split at ho
    · rw [if_pos (by assumption)]
    · rw [if_neg (by assumption)]
      split at ho
      · rw [if_pos (by assumption)]
      · rw [if_neg (by assumption)]
        split at ho
        · rw [if_pos (by assumption)]
        · simp at ho
  have h6 : ∀ b, blockedIPv6 b false = true → blockedIPv6 b blockPrivate = true := by
    intro b hb
    unfold blockedIPv6 at hb ⊢
    split at hb
    · rw [if_pos (by assumption)]
    · rw [if_neg (by assumption)]
      split at hb
      · rw [if_pos (by assumption)]
      · rw [if_neg (by assumption)]
        split at hb
        · rw [if_pos (by assumption)]
        · rw [if_neg (by assumption)]
          split at hb
          · rw [if_pos (by assumption)]
          · simp at hb
  unfold isBlockedAddress at h ⊢
  split at h
  · split at h
    · exact h4 _ h
    · exact h6 _ h
  · split at h
    · exact h4 _ h
    · rfl

end Capka.Net

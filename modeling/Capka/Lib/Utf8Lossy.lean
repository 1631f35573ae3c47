import Capka.Lib.Utf8
import Capka.Lib.Incremental

/-!
# Bytes that may be no text

A decoder that never fails writes a replacement character for each stretch of bytes that begins no character. A text that is decoded
piece by piece comes out as it is where no piece ends inside a character, and each character that is cut comes out as replacement
characters.
-/

namespace Utf8

/-- The replacement character. -/
def replacement : Char := Char.ofNat 0xfffd

/-- The two bytes begin a character of three bytes or four. -/
def beginsChar (b₀ b₁ : UInt8) : Bool :=
  if b₀ = 0xe0 then 0xa0 ≤ b₁ && b₁ ≤ 0xbf
  else if b₀ = 0xed then 0x80 ≤ b₁ && b₁ ≤ 0x9f
  else if 0xe1 ≤ b₀ && b₀ ≤ 0xef then continues b₁
  else if b₀ = 0xf0 then 0x90 ≤ b₁ && b₁ ≤ 0xbf
  else if b₀ = 0xf4 then 0x80 ≤ b₁ && b₁ ≤ 0x8f
  else if 0xf1 ≤ b₀ && b₀ ≤ 0xf3 then continues b₁
  else false

/-- How many bytes one replacement character stands for, where no character begins: as many as could have begun one. -/
def subpart : List UInt8 → Nat
  | b₀ :: b₁ :: b₂ :: _ => if beginsChar b₀ b₁ then if 0xf0 ≤ b₀ && continues b₂ then 3 else 2 else 1
  | [b₀, b₁] => if beginsChar b₀ b₁ then 2 else 1
  | _ => 1

/-- The character at the front of the bytes, and how many bytes it takes. -/
def front (bytes : List UInt8) : Char × Nat :=
  match bytes.toByteArray.utf8DecodeChar? 0 with
  | some c => (c, (String.utf8EncodeChar c).length)
  | none => (replacement, subpart bytes)

/-- The loop of the decoder. -/
def decodeFrom : Nat → List UInt8 → List Char
  | 0, _ => []
  | _ + 1, [] => []
  | fuel + 1, b :: bs => (front (b :: bs)).1 :: decodeFrom fuel ((b :: bs).drop (front (b :: bs)).2)

/-- The text of bytes, whatever they are. -/
def decodeLossy (bytes : List UInt8) : List Char := decodeFrom bytes.length bytes

/-! ## One step of the decoder -/

theorem subpart_pos (bytes : List UInt8) : 1 ≤ subpart bytes := by
  unfold subpart
  split
  · split_ifs <;> omega
  · split_ifs <;> omega
  · omega

theorem front_pos (bytes : List UInt8) : 1 ≤ (front bytes).2 := by
  unfold front
  split
  · exact (char_bytes _).1
  · exact subpart_pos bytes

theorem decodeFrom_fuel {fuel : Nat} : ∀ {bytes : List UInt8}, bytes.length ≤ fuel → decodeFrom fuel bytes = decodeLossy bytes := by
  suffices h : ∀ (n m : Nat) (bytes : List UInt8), bytes.length ≤ n → bytes.length ≤ m → decodeFrom n bytes = decodeFrom m bytes from
    fun {_} hle => h _ _ _ hle le_rfl
  intro n
  induction n with
  | zero =>
    intro m bytes hn _
    obtain rfl := List.length_eq_zero_iff.mp (Nat.le_zero.mp hn)
    cases m <;> rfl
  | succ n ih =>
    intro m bytes hn hm
    cases bytes with
    | nil => cases m <;> rfl
    | cons b bs =>
      obtain ⟨m, rfl⟩ : ∃ k, m = k + 1 := ⟨m - 1, by simp only [List.length_cons] at hm; omega⟩
      have hpos := front_pos (b :: bs)
      simp only [List.length_cons] at hn hm
      rw [decodeFrom, decodeFrom, ih m _ (by simp only [List.length_drop, List.length_cons]; omega)
        (by simp only [List.length_drop, List.length_cons]; omega)]

@[simp] theorem decodeLossy_nil : decodeLossy [] = [] := rfl

theorem decodeLossy_cons (b : UInt8) (bs : List UInt8) :
    decodeLossy (b :: bs) = (front (b :: bs)).1 :: decodeLossy ((b :: bs).drop (front (b :: bs)).2) := by
  have hpos := front_pos (b :: bs)
  have hfuel : decodeFrom bs.length ((b :: bs).drop (front (b :: bs)).2) = decodeLossy ((b :: bs).drop (front (b :: bs)).2) :=
    decodeFrom_fuel (by simp only [List.length_drop, List.length_cons]; omega)
  rw [← hfuel]
  rfl

theorem front_encodeChar (c : Char) (t : List UInt8) :
    front (String.utf8EncodeChar c ++ t) = (c, (String.utf8EncodeChar c).length) := by
  have hchar : (String.utf8EncodeChar c ++ t).toByteArray.utf8DecodeChar? 0 = some c := by
    rw [List.toByteArray_append]
    exact ByteArray.utf8DecodeChar?_utf8EncodeChar_append
  simp only [front, hchar]

theorem exists_of_decodeChar {bytes : List UInt8} {c : Char} (h : bytes.toByteArray.utf8DecodeChar? 0 = some c) :
    ∃ t, bytes = String.utf8EncodeChar c ++ t := by
  obtain ⟨t, ht⟩ := ByteArray.exists_of_utf8DecodeChar?_eq_some h
  refine ⟨t.data.toList, ?_⟩
  have hdata := congrArg (fun b : ByteArray => b.data.toList) ht
  simpa using hdata

theorem front_of_none {bytes : List UInt8} (h : ∀ c t, bytes ≠ String.utf8EncodeChar c ++ t) : front bytes = (replacement, subpart bytes) := by
  unfold front
  split
  · rename_i c hc
    obtain ⟨t, ht⟩ := exists_of_decodeChar hc
    exact absurd ht (h c t)
  · rfl

/-! ## Text and stray bytes -/

theorem decodeLossy_encode_append (s : List Char) (t : List UInt8) : decodeLossy (encode s ++ t) = s ++ decodeLossy t := by
  induction s with
  | nil => rfl
  | cons c s ih =>
    obtain ⟨b, bs, hb⟩ := List.exists_cons_of_ne_nil (List.length_pos_iff.mp (char_bytes c).1)
    have hfront := front_encodeChar c (encode s ++ t)
    have hdrop : (String.utf8EncodeChar c ++ (encode s ++ t)).drop (String.utf8EncodeChar c).length = encode s ++ t := List.drop_left
    rw [encode_cons, List.append_assoc, List.cons_append, ← ih]
    rw [hb, List.cons_append] at hfront hdrop ⊢
    rw [decodeLossy_cons, hfront, hdrop]

theorem decodeLossy_encode (s : List Char) : decodeLossy (encode s) = s := by
  have h := decodeLossy_encode_append s []
  rwa [List.append_nil, decodeLossy_nil, List.append_nil] at h

theorem front_of_continues {b : UInt8} (h : continues b = true) (bs : List UInt8) : front (b :: bs) = (replacement, 1) := by
  have hno : ∀ c t, b :: bs ≠ String.utf8EncodeChar c ++ t := by
    intro c t heq
    have hfirst : (String.utf8EncodeChar c)[0]? = some b := by
      rw [← List.getElem?_append_left (char_bytes c).1, ← heq]
      rfl
    exact (continues_iff c hfirst).mp h rfl
  have hlow : b < 0xe0 := by
    rw [continues, decide_eq_true_eq, ← UInt8.toBitVec_inj] at h
    exact (by decide : ∀ v : BitVec 8, v &&& 0xc0#8 = 0x80#8 → v < 0xe0#8) b.toBitVec h
  have hbegins : ∀ b₁, beginsChar b b₁ = false := by
    intro b₁
    have h0 := UInt8.lt_iff_toNat_lt.mp hlow
    have hne : ∀ x : UInt8, 0xe0 ≤ x.toNat → b ≠ x := by
      rintro x hx rfl
      exact absurd h0 (by simpa using hx)
    have hle : ∀ x : UInt8, 0xe0 ≤ x.toNat → ¬x ≤ b := by
      intro x hx hxb
      have := UInt8.le_iff_toNat_le.mp hxb
      simp only [UInt8.reduceToNat] at h0
      omega
    simp [beginsChar, hne 0xe0 (by decide), hne 0xed (by decide), hne 0xf0 (by decide), hne 0xf4 (by decide), hle 0xe1 (by decide),
      hle 0xf1 (by decide)]
  rw [front_of_none hno]
  congr 1
  rcases bs with _ | ⟨b₁, _ | ⟨b₂, bs⟩⟩
  · rfl
  · simp [subpart, hbegins b₁]
  · simp [subpart, hbegins b₁]

theorem decodeLossy_continuing {k : List UInt8} (h : ∀ b ∈ k, continues b = true) (t : List UInt8) :
    decodeLossy (k ++ t) = List.replicate k.length replacement ++ decodeLossy t := by
  induction k with
  | nil => rfl
  | cons b k ih =>
    rw [List.cons_append, decodeLossy_cons, front_of_continues (h b List.mem_cons_self), List.drop_one, List.tail_cons,
      ih fun x hx => h x (List.mem_cons_of_mem _ hx)]
    rfl

theorem continues_of_cut {c : Char} {q r : List UInt8} (h : String.utf8EncodeChar c = q ++ r) (hq : q ≠ []) : ∀ b ∈ r, continues b = true := by
  intro b hb
  obtain ⟨i, hi, rfl⟩ := List.getElem_of_mem hb
  refine (continues_iff c (i := q.length + i) ?_).mpr ?_
  · rw [h, List.getElem?_append_right (by omega), Nat.add_sub_cancel_left]
    exact List.getElem?_eq_getElem hi
  · have := List.length_pos_iff.mpr hq
    omega

theorem decodeLossy_cut {c : Char} {q r : List UInt8} (h : String.utf8EncodeChar c = q ++ r) (hq : q ≠ []) (hr : r ≠ []) :
    ∃ m, 1 ≤ m ∧ decodeLossy q = List.replicate m replacement := by
  have hno : ∀ d t, q ≠ String.utf8EncodeChar d ++ t := by
    intro d t heq
    have hfront := front_encodeChar c []
    rw [List.append_nil, h, heq, List.append_assoc, front_encodeChar] at hfront
    have hlen := congrArg Prod.snd hfront
    have hrest := List.length_pos_iff.mpr hr
    simp only [List.length_append] at hlen
    omega
  obtain ⟨b, q, rfl⟩ := List.exists_cons_of_ne_nil hq
  have htail : ∀ x ∈ q, continues x = true := by
    intro x hx
    exact continues_of_cut (q := [b]) (r := q ++ r) (by simpa using h) (by simp) x (List.mem_append_left _ hx)
  have hpos := subpart_pos (b :: q)
  have hdrop : ∀ x ∈ (b :: q).drop (subpart (b :: q)), continues x = true := by
    intro x hx
    obtain ⟨n, hn⟩ : ∃ n, subpart (b :: q) = n + 1 := ⟨subpart (b :: q) - 1, by omega⟩
    rw [hn, List.drop_succ_cons] at hx
    exact htail x (List.mem_of_mem_drop hx)
  refine ⟨((b :: q).drop (subpart (b :: q))).length + 1, by omega, ?_⟩
  have hrest := decodeLossy_continuing hdrop []
  rw [List.append_nil, decodeLossy_nil, List.append_nil] at hrest
  rw [decodeLossy_cons, front_of_none hno, hrest]
  rfl

/-! ## A text in pieces -/

/-- The text with this many of its characters cut: each is replacement characters, two at least. A character of one byte cannot be cut. -/
inductive Garbled : Nat → List Char → List Char → Prop
  | nil : Garbled 0 [] []
  | keep (c : Char) {n : Nat} {s t : List Char} (h : Garbled n s t) : Garbled n (c :: s) (c :: t)
  | cut {c : Char} (hc : 2 ≤ (String.utf8EncodeChar c).length) {m : Nat} (hm : 2 ≤ m) {n : Nat} {s t : List Char} (h : Garbled n s t) :
      Garbled (n + 1) (c :: s) (List.replicate m replacement ++ t)

theorem Garbled.append_keep (a : List Char) {n : Nat} {s t : List Char} (h : Garbled n s t) : Garbled n (a ++ s) (a ++ t) := by
  induction a with
  | nil => exact h
  | cons c a ih => exact .keep c ih

theorem Garbled.eq {s t : List Char} (h : Garbled 0 s t) : t = s := by
  generalize hn : 0 = n at h
  induction h with
  | nil => rfl
  | keep c _ ih => rw [ih hn]
  | cut _ _ _ _ => cases hn

theorem Garbled.count_le {n : Nat} {s t : List Char} (h : Garbled n s t) : s.count replacement + n ≤ t.count replacement := by
  induction h with
  | nil => simp
  | keep c _ ih =>
    simp only [List.count_cons]
    omega
  | @cut c _ m hm n s t _ ih =>
    simp only [List.count_cons, List.count_append, List.count_replicate_self]
    split <;> omega

/-- No piece but the last ends inside a character of the whole. -/
def CutsNoChar (pieces : List (List UInt8)) : Prop :=
  ∀ pre post, pieces = pre ++ post → midSequence pieces.flatten pre.flatten.length = false

/-- The front of a text's bytes ends between two characters, or inside one. -/
theorem encode_eq_append {s : List Char} {p x : List UInt8} (h : encode s = p ++ x) :
    (∃ a b, s = a ++ b ∧ p = encode a ∧ x = encode b) ∨
      ∃ a c b q r, s = a ++ c :: b ∧ String.utf8EncodeChar c = q ++ r ∧ q ≠ [] ∧ r ≠ [] ∧ p = encode a ++ q ∧ x = r ++ encode b := by
  induction s generalizing p with
  | nil =>
    obtain ⟨rfl, rfl⟩ := List.append_eq_nil_iff.mp h.symm
    exact .inl ⟨[], [], rfl, rfl, rfl⟩
  | cons c s ih =>
    rw [encode_cons] at h
    rcases List.append_eq_append_iff.mp h with ⟨p', rfl, hx⟩ | ⟨r, hc, rfl⟩
    · rcases ih hx with ⟨a, b, rfl, rfl, rfl⟩ | ⟨a, d, b, q, r, rfl, hd, hq, hr, rfl, rfl⟩
      · exact .inl ⟨c :: a, b, rfl, rfl, rfl⟩
      · exact .inr ⟨c :: a, d, b, q, r, rfl, hd, hq, hr, by rw [encode_cons, List.append_assoc], rfl⟩
    · by_cases hp : p = []
      · subst hp
        exact .inl ⟨[], c :: s, rfl, rfl, by rw [encode_cons, hc]; rfl⟩
      by_cases hr : r = []
      · subst hr
        rw [List.append_nil] at hc
        exact .inl ⟨[c], s, rfl, by rw [← hc]; simp [encode], rfl⟩
      · exact .inr ⟨[], c, s, p, r, rfl, hc, hp, hr, rfl, rfl⟩

theorem mid_append (x y : List UInt8) (n : Nat) : midSequence (x ++ y) (x.length + n) = midSequence y n := by
  rw [midSequence, List.getElem?_append_right (by omega), Nat.add_sub_cancel_left]
  rfl

theorem mid_encode_zero (s : List Char) : midSequence (encode s) 0 = false := not_mid_encode [] s

theorem forall_splits_cons {α : Type*} {P : List α → Prop} {p : α} {ps : List α} :
    (∀ pre post, p :: ps = pre ++ post → P pre) ↔ P [] ∧ ∀ pre post, ps = pre ++ post → P (p :: pre) := by
  constructor
  · intro h
    exact ⟨h [] _ rfl, fun pre post hps => h (p :: pre) post (by rw [hps, List.cons_append])⟩
  · rintro ⟨hnil, hcons⟩ pre post hps
    cases pre with
    | nil => exact hnil
    | cons q pre =>
      rw [List.cons_append, List.cons.injEq] at hps
      obtain ⟨rfl, hps⟩ := hps
      exact hcons pre post hps

/-- The pieces of a text behind the rest of a character. The rest is replacement characters, and the text loses the characters that are
cut. -/
theorem decode_pieces_behind (pieces : List (List UInt8)) : ∀ (k : List UInt8) (s : List Char), (∀ b ∈ k, continues b = true) →
    pieces.flatten = k ++ encode s → ∃ n t, pieces.flatMap decodeLossy = List.replicate k.length replacement ++ t ∧ Garbled n s t ∧
      (n = 0 ↔ ∀ pre post, pieces = pre ++ post → k.length ≤ pre.flatten.length →
        midSequence pieces.flatten pre.flatten.length = false) := by
  induction pieces with
  | nil =>
    intro k s _ h
    obtain ⟨rfl, hs⟩ := List.append_eq_nil_iff.mp h.symm
    have hlen := length_le_encode s
    rw [hs, List.length_nil, Nat.le_zero, List.length_eq_zero_iff] at hlen
    subst hlen
    refine ⟨0, [], rfl, .nil, ?_⟩
    simp [midSequence]
  | cons p ps ih =>
    intro k s hk h
    have hshift : ∀ pre : List (List UInt8), midSequence (p :: ps).flatten (p :: pre).flatten.length = midSequence ps.flatten pre.flatten.length := by
      intro pre
      rw [List.flatten_cons, List.flatten_cons, List.length_append, mid_append]
    have hzero : k.length ≤ ([] : List (List UInt8)).flatten.length → midSequence (p :: ps).flatten ([] : List (List UInt8)).flatten.length = false := by
      intro hle
      rw [List.flatten_nil, List.length_nil, Nat.le_zero, List.length_eq_zero_iff] at hle
      rw [h, hle]
      exact mid_encode_zero s
    have hfirst := h
    rw [List.flatten_cons] at hfirst
    rcases List.append_eq_append_iff.mp hfirst with ⟨k', rfl, hps⟩ | ⟨p', rfl, hs⟩
    · -- the piece ends before the rest of the character does
      obtain ⟨n, t, ht, hgarbled, hn⟩ := ih k' s (fun b hb => hk b (List.mem_append_right _ hb)) hps
      have hp := decodeLossy_continuing (k := p) (fun b hb => hk b (List.mem_append_left _ hb)) []
      rw [List.append_nil, decodeLossy_nil, List.append_nil] at hp
      refine ⟨n, t, ?_, hgarbled, ?_⟩
      · rw [List.flatMap_cons, hp, ht, ← List.append_assoc, List.length_append, List.replicate_add]
      · rw [hn, forall_splits_cons]
        refine ⟨fun hall => ⟨hzero, fun pre post hpre hle => ?_⟩, fun hall pre post hpre hle => ?_⟩
        · rw [hshift]
          rw [List.flatten_cons, List.length_append, List.length_append] at hle
          exact hall pre post hpre (by omega)
        · rw [← hshift]
          refine hall.2 pre post hpre ?_
          rw [List.flatten_cons, List.length_append, List.length_append]
          omega
    · rcases encode_eq_append hs with ⟨a, b, rfl, rfl, hps⟩ | ⟨a, c, b, q, r, rfl, hc, hq, hr, rfl, hps⟩
      · -- the piece ends between two characters
        obtain ⟨n, t, ht, hgarbled, hn⟩ := ih [] b (by simp) hps
        refine ⟨n, a ++ t, ?_, hgarbled.append_keep a, ?_⟩
        · rw [List.flatMap_cons, decodeLossy_continuing hk, decodeLossy_encode, ht, List.append_assoc]
          rfl
        · rw [hn, forall_splits_cons]
          refine ⟨fun hall => ⟨hzero, fun pre post hpre _ => ?_⟩, fun hall pre post hpre _ => ?_⟩
          · rw [hshift]
            exact hall pre post hpre (Nat.zero_le _)
          · rw [← hshift]
            refine hall.2 pre post hpre ?_
            simp only [List.flatten_cons, List.length_append]
            omega
      · -- the piece ends inside a character
        have hrest := continues_of_cut hc hq
        obtain ⟨n, t, ht, hgarbled, -⟩ := ih r b hrest hps
        obtain ⟨m, hm, hcut⟩ := decodeLossy_cut hc hq hr
        have hr' := List.length_pos_iff.mpr hr
        have hq' := List.length_pos_iff.mpr hq
        refine ⟨n + 1, a ++ (List.replicate (m + r.length) replacement ++ t), ?_,
          (Garbled.cut (by rw [hc, List.length_append]; omega) (by omega) hgarbled).append_keep a, ?_⟩
        · rw [List.flatMap_cons, decodeLossy_continuing hk, decodeLossy_encode_append, hcut, ht, List.replicate_add]
          simp only [List.append_assoc]
        · refine iff_of_false (Nat.succ_ne_zero n) fun hall => ?_
          have hend := hall [k ++ (encode a ++ q)] ps rfl (by simp)
          obtain ⟨x, r, rfl⟩ := List.exists_cons_of_ne_nil hr
          have hmid := mid_append (k ++ (encode a ++ q)) ps.flatten 0
          rw [Nat.add_zero] at hmid
          rw [List.flatten_cons, List.flatten_cons, List.flatten_nil, List.append_nil, hmid, hps, List.cons_append, midSequence,
            List.getElem?_cons_zero, Option.any_some, hrest x List.mem_cons_self] at hend
          cases hend

theorem decode_pieces {pieces : List (List UInt8)} {s : List Char} (h : pieces.flatten = encode s) :
    ∃ n, Garbled n s (pieces.flatMap decodeLossy) ∧ (n = 0 ↔ CutsNoChar pieces) := by
  obtain ⟨n, t, ht, hgarbled, hn⟩ := decode_pieces_behind pieces [] s (by simp) h
  rw [List.length_nil, List.replicate_zero, List.nil_append] at ht
  refine ⟨n, ht ▸ hgarbled, hn.trans ?_⟩
  simp [CutsNoChar]

end Utf8

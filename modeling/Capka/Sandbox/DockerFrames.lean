import Capka.Lib.Incremental
import Capka.Lib.Utf8Lossy

/-!
# Docker's multiplexed stream

The output of an exec is frames, each a header of eight bytes and a payload, and the chunks the socket delivers are not aligned to them.
The demultiplexer buffers what is no whole frame yet and keeps the payloads of both streams up to one limit on their bytes; from the first
frame that would cross it on, everything is dropped.
-/

namespace Capka.DockerFrames

/-- A frame: its stream and its payload, whose size the header holds in four bytes. -/
structure DockerFrame where
  type : UInt8
  payload : List UInt8
  fits : payload.length < 2 ^ 32
  deriving DecidableEq

def writeUInt32BE (n : Nat) : List UInt8 := [UInt8.ofNat (n / 2 ^ 24), UInt8.ofNat (n / 2 ^ 16), UInt8.ofNat (n / 2 ^ 8), UInt8.ofNat n]

/-- `readUInt32BE`, of the bytes it reads. -/
def readUInt32BE (b₀ b₁ b₂ b₃ : UInt8) : Nat := ((b₀.toNat * 2 ^ 8 + b₁.toNat) * 2 ^ 8 + b₂.toNat) * 2 ^ 8 + b₃.toNat

/-- `encodeFrame`. -/
def DockerFrame.encode (f : DockerFrame) : List UInt8 := [f.type, 0, 0, 0] ++ writeUInt32BE f.payload.length ++ f.payload

/-- The head of the loop: a whole frame at the front of the buffer, its type and its payload. -/
def nextFrame : List UInt8 → Option ((UInt8 × List UInt8) × List UInt8)
  | type :: _ :: _ :: _ :: b₀ :: b₁ :: b₂ :: b₃ :: rest =>
    let size := readUInt32BE b₀ b₁ b₂ b₃
    if rest.length < size then none else some ((type, rest.take size), rest.drop size)
  | _ => none

/-- What a demultiplexer keeps beside its buffer. -/
structure DemuxState where
  out : List (List UInt8)
  err : List (List UInt8)
  bytes : Nat
  truncated : Bool
  deriving DecidableEq

/-- `n > maxBytes`. The limit may be infinite. -/
def exceeds (n : Nat) (maxBytes : Option Int) : Bool := maxBytes.any fun (m : Int) => decide (m < n)

/-- The body of the loop: a frame is counted before it is kept. -/
def keep (maxBytes : Option Int) (d : DemuxState) (frame : UInt8 × List UInt8) : DemuxState :=
  if d.truncated || exceeds (d.bytes + frame.2.length) maxBytes then { d with truncated := true }
  else
    let d := { d with bytes := d.bytes + frame.2.length }
    if frame.1 = 1 then { d with out := d.out ++ [frame.2] }
    else if frame.1 = 2 then { d with err := d.err ++ [frame.2] }
    else d

/-- What the demultiplexer answers at the end. -/
structure DemuxResult where
  stdout : List Char
  stderr : List Char
  truncated : Bool
  deriving DecidableEq

def DemuxState.result (d : DemuxState) : DemuxResult where
  stdout := Utf8.decodeLossy d.out.flatten
  stderr := Utf8.decodeLossy d.err.flatten
  truncated := d.truncated

namespace FrameAux

theorem nextFrame_some {b r : List UInt8} {a : UInt8 × List UInt8} (h : nextFrame b = some (a, r)) :
    ∃ z₁ z₂ z₃ b₀ b₁ b₂ b₃ rest, b = a.1 :: z₁ :: z₂ :: z₃ :: b₀ :: b₁ :: b₂ :: b₃ :: rest ∧ readUInt32BE b₀ b₁ b₂ b₃ ≤ rest.length ∧
      a.2 = rest.take (readUInt32BE b₀ b₁ b₂ b₃) ∧ r = rest.drop (readUInt32BE b₀ b₁ b₂ b₃) := by
  unfold nextFrame at h
  split at h
  · rename_i type z₁ z₂ z₃ b₀ b₁ b₂ b₃ rest
    dsimp only at h
    split at h
    · cases h
    · rename_i hsize
      cases h
      exact ⟨z₁, z₂, z₃, b₀, b₁, b₂, b₃, rest, rfl, by omega, rfl, rfl⟩
  · cases h

end FrameAux

open FrameAux

/-- The frames at the front of a buffer. -/
def frames : Incremental.Reader UInt8 (UInt8 × List UInt8) where
  take := nextFrame
  shorter := by
    intro b a r h
    obtain ⟨z₁, z₂, z₃, b₀, b₁, b₂, b₃, rest, rfl, _, _, rfl⟩ := nextFrame_some h
    simp only [List.length_drop, List.length_cons]
    omega
  stable := by
    intro b a r x h
    obtain ⟨z₁, z₂, z₃, b₀, b₁, b₂, b₃, rest, rfl, hsize, ha, rfl⟩ := nextFrame_some h
    simp only [List.cons_append, nextFrame, List.length_append]
    rw [if_neg (by omega), List.take_append_of_le_length hsize, List.drop_append_of_le_length hsize, ← ha]

/-- `createFrameDemux`, after these chunks were pushed. -/
def demux (maxBytes : Option Int) (chunks : List (List UInt8)) : DemuxState :=
  (chunks.foldl (frames.consume (keep maxBytes)) (⟨[], [], 0, false⟩, [])).1

/-- The size of frames: the bytes of their payloads. -/
def size (fs : List DockerFrame) : Nat := (fs.map fun f => f.payload.length).sum

/-- The payloads of one stream, one after the other. -/
def payloads (type : UInt8) (fs : List DockerFrame) : List UInt8 := (fs.filter fun f => f.type = type).flatMap DockerFrame.payload

/-- The longest beginning of the frames whose size is within a limit. -/
structure LongestWithin (maxBytes : Option Int) (fs kept : List DockerFrame) : Prop where
  begins : kept <+: fs
  within : kept ≠ [] → exceeds (size kept) maxBytes = false
  longest : ∀ longer, longer <+: fs → exceeds (size longer) maxBytes = false → longer <+: kept

/-- Bytes of a frame whose end did not arrive. -/
def Incomplete (tail : List UInt8) : Prop := ∃ f : DockerFrame, tail <+: f.encode ∧ tail ≠ f.encode

namespace FrameAux

theorem readUInt32BE_write {n : Nat} (h : n < 2 ^ 32) :
    readUInt32BE (UInt8.ofNat (n / 2 ^ 24)) (UInt8.ofNat (n / 2 ^ 16)) (UInt8.ofNat (n / 2 ^ 8)) (UInt8.ofNat n) = n := by
  simp only [readUInt32BE, UInt8.toNat_ofNat']
  omega

theorem encode_eq (f : DockerFrame) :
    f.encode = f.type :: 0 :: 0 :: 0 :: UInt8.ofNat (f.payload.length / 2 ^ 24) :: UInt8.ofNat (f.payload.length / 2 ^ 16) ::
      UInt8.ofNat (f.payload.length / 2 ^ 8) :: UInt8.ofNat f.payload.length :: f.payload := rfl

theorem nextFrame_encode (f : DockerFrame) (x : List UInt8) : nextFrame (f.encode ++ x) = some ((f.type, f.payload), x) := by
  rw [encode_eq]
  simp only [List.cons_append, nextFrame, readUInt32BE_write f.fits]
  rw [if_neg (by simp), List.take_left, List.drop_left]

theorem nextFrame_incomplete {tail : List UInt8} (h : Incomplete tail) : nextFrame tail = none := by
  obtain ⟨f, ⟨x, hx⟩, hne⟩ := h
  cases hnext : nextFrame tail with
  | none => rfl
  | some ar =>
    obtain ⟨a, r⟩ := ar
    have hx' := frames.stable x hnext
    change nextFrame (tail ++ x) = some (a, r ++ x) at hx'
    have hwhole := nextFrame_encode f []
    rw [List.append_nil, ← hx, hx', Option.some.injEq, Prod.mk.injEq] at hwhole
    obtain ⟨-, hnil⟩ := List.append_eq_nil_iff.mp hwhole.2
    rw [hnil, List.append_nil] at hx
    exact absurd hx hne

theorem reads_frames (fs : List DockerFrame) {tail : List UInt8} (h : nextFrame tail = none) :
    frames.Reads (fs.flatMap DockerFrame.encode ++ tail) (fs.map fun f => (f.type, f.payload)) tail := by
  induction fs with
  | nil => exact .wait h
  | cons f fs ih =>
    rw [List.flatMap_cons, List.append_assoc]
    exact .item (nextFrame_encode f _) ih

variable {maxBytes : Option Int}

theorem foldl_keep_truncated (fs : List (UInt8 × List UInt8)) (d : DemuxState) (h : d.truncated = true) :
    fs.foldl (keep maxBytes) d = d := by
  induction fs with
  | nil => rfl
  | cons f fs ih =>
    have hkeep : keep maxBytes d f = d := by
      simp only [keep, h, Bool.true_or, if_true]
      rw [← h]
    rw [List.foldl_cons, hkeep, ih]

theorem keep_fits {d : DemuxState} (htrunc : d.truncated = false) {f : DockerFrame}
    (h : exceeds (d.bytes + f.payload.length) maxBytes = false) :
    ∃ out err, keep maxBytes d (f.type, f.payload) = ⟨out, err, d.bytes + f.payload.length, false⟩ ∧
      out.flatten = d.out.flatten ++ payloads 1 [f] ∧ err.flatten = d.err.flatten ++ payloads 2 [f] := by
  simp only [keep, htrunc, h, Bool.or_self, Bool.false_eq_true, if_false]
  by_cases h1 : f.type = 1
  · refine ⟨d.out ++ [f.payload], d.err, by simp [h1], ?_, ?_⟩
    · simp [payloads, h1]
    · simp [payloads, h1]
  · by_cases h2 : f.type = 2
    · refine ⟨d.out, d.err ++ [f.payload], by simp [h2], ?_, ?_⟩
      · simp [payloads, h2]
      · simp [payloads, h2]
    · refine ⟨d.out, d.err, by simp [h1, h2], ?_, ?_⟩
      · simp [payloads, h1]
      · simp [payloads, h2]

theorem payloads_cons (type : UInt8) (f : DockerFrame) (fs : List DockerFrame) :
    payloads type (f :: fs) = payloads type [f] ++ payloads type fs := by
  rw [payloads, ← List.singleton_append, List.filter_append, List.flatMap_append]
  rfl

theorem size_cons (f : DockerFrame) (fs : List DockerFrame) : size (f :: fs) = f.payload.length + size fs := by
  simp [size]

/-- What frames leave behind a state: the longest beginning that fits behind what it has kept already. -/
theorem foldl_keep (fs : List DockerFrame) : ∀ d : DemuxState, d.truncated = false →
    ∃ kept rest, fs = kept ++ rest ∧
      (kept ≠ [] → exceeds (d.bytes + size kept) maxBytes = false) ∧
      (∀ f ∈ rest.head?, exceeds (d.bytes + size kept + f.payload.length) maxBytes = true) ∧
      ((fs.map fun f => (f.type, f.payload)).foldl (keep maxBytes) d).out.flatten = d.out.flatten ++ payloads 1 kept ∧
      ((fs.map fun f => (f.type, f.payload)).foldl (keep maxBytes) d).err.flatten = d.err.flatten ++ payloads 2 kept ∧
      ((fs.map fun f => (f.type, f.payload)).foldl (keep maxBytes) d).truncated = !rest.isEmpty := by
  induction fs with
  | nil =>
    intro d htrunc
    exact ⟨[], [], rfl, fun h => absurd rfl h, by simp, by simp [payloads], by simp [payloads], by simpa using htrunc⟩
  | cons f fs ih =>
    intro d htrunc
    cases hfits : exceeds (d.bytes + f.payload.length) maxBytes with
    | false =>
      obtain ⟨out, err, hkeep, hout, herr⟩ := keep_fits htrunc hfits
      obtain ⟨kept, rest, rfl, hwithin, hcross, ho, he, ht⟩ := ih ⟨out, err, d.bytes + f.payload.length, false⟩ rfl
      refine ⟨f :: kept, rest, rfl, fun _ => ?_, ?_, ?_, ?_, ?_⟩
      · by_cases hk : kept = []
        · subst hk
          simpa [size] using hfits
        · rw [size_cons, ← Nat.add_assoc]
          exact hwithin hk
      · rw [size_cons, ← Nat.add_assoc]
        exact hcross
      · rw [List.map_cons, List.foldl_cons, hkeep, ho, hout, payloads_cons _ f kept, List.append_assoc]
      · rw [List.map_cons, List.foldl_cons, hkeep, he, herr, payloads_cons _ f kept, List.append_assoc]
      · rw [List.map_cons, List.foldl_cons, hkeep, ht]
    | true =>
      have hkeep : keep maxBytes d (f.type, f.payload) = { d with truncated := true } := by
        simp [keep, hfits]
      refine ⟨[], f :: fs, rfl, fun h => absurd rfl h, ?_, ?_, ?_, ?_⟩
      · intro g hg
        obtain rfl := Option.some.inj hg
        simpa [size] using hfits
      · rw [List.map_cons, List.foldl_cons, hkeep, foldl_keep_truncated _ _ rfl]
        simp [payloads]
      · rw [List.map_cons, List.foldl_cons, hkeep, foldl_keep_truncated _ _ rfl]
        simp [payloads]
      · rw [List.map_cons, List.foldl_cons, hkeep, foldl_keep_truncated _ _ rfl]
        rfl

theorem size_append (fs gs : List DockerFrame) : size (fs ++ gs) = size fs + size gs := by
  simp [size]

theorem exceeds_mono {m n : Nat} (h : m ≤ n) (hm : exceeds m maxBytes = true) : exceeds n maxBytes = true := by
  cases maxBytes with
  | none => cases hm
  | some limit =>
    simp only [exceeds, Option.any_some, decide_eq_true_eq] at hm ⊢
    omega

theorem longest_of_crossing {kept rest : List DockerFrame} (hwithin : kept ≠ [] → exceeds (size kept) maxBytes = false)
    (hcross : ∀ f ∈ rest.head?, exceeds (size kept + f.payload.length) maxBytes = true) : LongestWithin maxBytes (kept ++ rest) kept where
  begins := List.prefix_append _ _
  within := hwithin
  longest := by
    intro longer hlonger hsize
    rcases List.prefix_or_prefix_of_prefix hlonger (List.prefix_append kept rest) with h | ⟨more, rfl⟩
    · exact h
    cases more with
    | nil => rw [List.append_nil]
    | cons f more =>
      have hrest := (List.prefix_append_right_inj kept).mp hlonger
      obtain ⟨last, rfl⟩ := hrest
      have hover := exceeds_mono (n := size (kept ++ f :: more)) (by rw [size_append, size_cons]; omega) (hcross f rfl)
      rw [hsize] at hover
      cases hover

theorem demux_eq (fs : List DockerFrame) {tail : List UInt8} (htail : Incomplete tail) {chunks : List (List UInt8)}
    (h : chunks.flatten = fs.flatMap DockerFrame.encode ++ tail) :
    demux maxBytes chunks = (fs.map fun f => (f.type, f.payload)).foldl (keep maxBytes) ⟨[], [], 0, false⟩ := by
  have hreads := reads_frames fs (nextFrame_incomplete htail)
  rw [← h] at hreads
  rw [demux, Incremental.Reader.consume_chunks (keep maxBytes) (R := frames) rfl hreads]

end FrameAux

/-- **The demultiplexer keeps the longest beginning of the whole frames that is within the limit**, and what it answers is made of it; the
chunks do not matter. -/
theorem demux_longest (maxBytes : Option Int) (fs : List DockerFrame) (tail : List UInt8) (htail : Incomplete tail)
    (chunks : List (List UInt8)) (h : chunks.flatten = fs.flatMap DockerFrame.encode ++ tail) :
    (∃ kept, LongestWithin maxBytes fs kept ∧
      (demux maxBytes chunks).result =
        ⟨Utf8.decodeLossy (payloads 1 kept), Utf8.decodeLossy (payloads 2 kept), decide (kept ≠ fs)⟩) ∧
      ∀ chunks', chunks'.flatten = chunks.flatten → (demux maxBytes chunks').result = (demux maxBytes chunks).result := by
  constructor
  · obtain ⟨kept, rest, rfl, hwithin, hcross, hout, herr, htrunc⟩ := foldl_keep fs ⟨[], [], 0, false⟩ rfl
    simp only [Nat.zero_add] at hwithin hcross
    refine ⟨kept, longest_of_crossing hwithin hcross, ?_⟩
    rw [demux_eq _ htail h, DemuxState.result, hout, herr, htrunc]
    cases rest with
    | nil => simp
    | cons f rest => simp
  · intro chunks' hchunks
    rw [demux_eq fs htail h, demux_eq fs htail (hchunks.trans h)]

/-- A frame of each stream and half a header, cut inside both frames, with room for the first payload. -/
theorem demux_longest_cut :
    let fs : List DockerFrame := [⟨1, [0x68, 0x69], by decide⟩, ⟨2, [0x21], by decide⟩]
    let chunks : List (List UInt8) := [[1, 0, 0], [0, 0, 0, 0, 2, 0x68], [0x69, 2, 0, 0, 0, 0, 0, 0, 1, 0x21, 1, 0]]
    (∃ kept, LongestWithin (some 2) fs kept ∧
      (demux (some 2) chunks).result =
        ⟨Utf8.decodeLossy (payloads 1 kept), Utf8.decodeLossy (payloads 2 kept), decide (kept ≠ fs)⟩) ∧
      ∀ chunks', chunks'.flatten = chunks.flatten → (demux (some 2) chunks').result = (demux (some 2) chunks).result := by
  intro fs chunks
  refine demux_longest (some 2) fs [1, 0] ⟨⟨1, [], by decide⟩, ⟨[0, 0, 0, 0, 0, 0], rfl⟩, ?_⟩ chunks rfl
  intro h
  cases h

end Capka.DockerFrames

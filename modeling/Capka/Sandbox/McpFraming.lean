import Capka.Chat.Message
import Capka.Sandbox.DockerFrames

/-!
# The lines of an MCP server

A server in a sandbox writes its messages as lines of JSON. The container daemon carries them in frames, a library splits the frames off
the socket, and the handler of the server's output decodes each chunk it gets on its own, appends it to a buffer and takes the whole lines
off. What it parses is handed to the call that waits for its id.
-/

namespace Capka.McpFraming

open DockerFrames Utf8

/-- The head of the handler's loop: the text up to the first line break, and what is behind it. -/
def nextLine (buf : List Char) : Option (List Char × List Char) :=
  if '\n' ∈ buf then some (buf.takeWhile (· ≠ '\n'), (buf.dropWhile (· ≠ '\n')).drop 1) else none

/-- The body of the loop: blank lines and lines that do not parse are skipped. -/
def onLine {Msg : Type} (parse : List Char → Option Msg) (msgs : List Msg) (line : List Char) : List Msg :=
  if trim line = [] then msgs
  else
    match parse (trim line) with
    | some msg => msgs ++ [msg]
    | none => msgs

namespace LineAux

theorem nextLine_cons {l r : List Char} (h : '\n' ∉ l) : nextLine (l ++ '\n' :: r) = some (l, r) := by
  have hall : ∀ c ∈ l, decide (c ≠ '\n') = true := by
    intro c hc
    have hne : c ≠ '\n' := by
      rintro rfl
      exact h hc
    simpa using hne
  rw [nextLine, if_pos (by simp), List.takeWhile_append_of_pos hall, List.dropWhile_append_of_pos hall]
  simp

theorem nextLine_some {b l r : List Char} (h : nextLine b = some (l, r)) : '\n' ∉ l ∧ b = l ++ '\n' :: r := by
  unfold nextLine at h
  split at h
  · rename_i hmem
    cases h
    refine ⟨fun hl => by simpa using List.mem_takeWhile_imp hl, ?_⟩
    obtain ⟨c, cs, hcs⟩ : ∃ c cs, b.dropWhile (· ≠ '\n') = c :: cs := by
      refine List.exists_cons_of_ne_nil fun hnil => ?_
      have := List.dropWhile_eq_nil_iff.mp hnil '\n' hmem
      simp at this
    have hc : c = '\n' := by
      have hhead := List.head?_dropWhile_not (fun x => decide (x ≠ '\n')) b
      rw [hcs] at hhead
      simpa using hhead
    conv_lhs => rw [← List.takeWhile_append_dropWhile (p := fun x => decide (x ≠ '\n')) (l := b), hcs, hc]
    rw [hcs]
    rfl
  · cases h

end LineAux

open LineAux

/-- The lines at the front of the buffer. -/
def lines : Incremental.Reader Char (List Char) where
  take := nextLine
  shorter := by
    intro b l r h
    obtain ⟨_, rfl⟩ := nextLine_some h
    simp only [List.length_append, List.length_cons]
    omega
  stable := by
    intro b l r x h
    obtain ⟨hl, rfl⟩ := nextLine_some h
    rw [List.append_assoc, List.cons_append]
    exact nextLine_cons hl

/-- `stdout.on("data", …)`: the chunk is decoded, appended to the buffer, and the buffer is read. -/
def onData {Msg : Type} (parse : List Char → Option Msg) (entry : List Msg × List Char) (chunk : List UInt8) : List Msg × List Char :=
  lines.consume (onLine parse) entry (decodeLossy chunk)

/-- The messages the handler reads from the chunks of the output, in order. -/
def delivered {Msg : Type} (parse : List Char → Option Msg) (chunks : List (List UInt8)) : List Msg :=
  (chunks.foldl (onData parse) ([], [])).1

/-- A text of lines. -/
def delimited (texts : List (List Char)) : List Char := texts.flatMap (· ++ ['\n'])

/-- What the library documents of `demuxStream`: whatever the chunks of the socket, it writes the payloads of the frames of stream 1 to the
first output, in order. -/
def Demultiplexes (demuxStream : List (List UInt8) → List (List UInt8)) : Prop :=
  ∀ (fs : List DockerFrame) (chunks : List (List UInt8)), chunks.flatten = fs.flatMap DockerFrame.encode →
    (demuxStream chunks).flatten = payloads 1 fs

namespace LineAux

variable {Msg : Type} {parse : List Char → Option Msg}

theorem reads_delimited (texts : List (List Char)) (h : ∀ t ∈ texts, '\n' ∉ t) : lines.Reads (delimited texts) texts [] := by
  induction texts with
  | nil => exact .wait rfl
  | cons t texts ih =>
    have hcons : delimited (t :: texts) = t ++ '\n' :: delimited texts := by simp [delimited]
    rw [hcons]
    exact .item (nextLine_cons (h t List.mem_cons_self)) (ih fun x hx => h x (List.mem_cons_of_mem _ hx))

theorem delivered_eq {chunks : List (List UInt8)} {texts : List (List Char)} (h : ∀ t ∈ texts, '\n' ∉ t)
    (hchunks : chunks.flatMap decodeLossy = delimited texts) : delivered parse chunks = texts.foldl (onLine parse) [] := by
  have hreads := reads_delimited texts h
  have hfold : chunks.foldl (onData parse) ([], []) = (chunks.map decodeLossy).foldl (lines.consume (onLine parse)) ([], []) := by
    rw [List.foldl_map]
    rfl
  rw [← hchunks, List.flatMap_def] at hreads
  rw [delivered, hfold, Incremental.Reader.consume_chunks (onLine parse) (R := lines) rfl hreads]

theorem foldl_onLine (texts : List (List Char)) (msgs : List (List Char)) :
    texts.foldl (onLine some) msgs = msgs ++ (texts.map trim).filter (· ≠ []) := by
  induction texts generalizing msgs with
  | nil => simp
  | cons t texts ih =>
    rw [List.foldl_cons, ih]
    by_cases ht : trim t = []
    · simp [onLine, ht]
    · simp [onLine, ht]

theorem count_trim (t : List Char) : (trim t).count replacement = t.count replacement := by
  have hdrop : ∀ s : List Char, (s.dropWhile (· ∈ trimChars)).count replacement = s.count replacement := by
    intro s
    induction s with
    | nil => rfl
    | cons c s ih =>
      rw [List.dropWhile_cons]
      split
      · rename_i hc
        have hne : c ≠ replacement := by
          rintro rfl
          exact absurd (of_decide_eq_true hc) (by decide)
        rw [ih, List.count_cons_of_ne hne]
      · rfl
  rw [trim, List.count_reverse, hdrop, List.count_reverse, hdrop]

theorem count_delimited (texts : List (List Char)) :
    (delimited texts).count replacement = ((texts.map trim).filter (· ≠ [])).flatten.count replacement := by
  induction texts with
  | nil => rfl
  | cons t texts ih =>
    have hcons : delimited (t :: texts) = t ++ '\n' :: delimited texts := by simp [delimited]
    rw [hcons, List.count_append, List.count_cons_of_ne (by decide), ih, List.map_cons, List.filter_cons]
    split
    · rw [List.flatten_cons, List.count_append, count_trim]
    · rename_i ht
      have hnil : trim t = [] := by simpa using ht
      rw [← count_trim t, hnil]
      simp

theorem eq_of_reads {b rest : List Char} {texts : List (List Char)} (h : lines.Reads b texts rest) :
    b = delimited texts ++ rest ∧ '\n' ∉ rest ∧ ∀ t ∈ texts, '\n' ∉ t := by
  induction h with
  | @wait b hwait =>
    refine ⟨rfl, fun hmem => ?_, by simp⟩
    have hsome : nextLine b = none := hwait
    rw [nextLine, if_pos hmem] at hsome
    cases hsome
  | item htake _ ih =>
    obtain ⟨hl, rfl⟩ := nextLine_some htake
    obtain ⟨rfl, hrest, htexts⟩ := ih
    refine ⟨by simp [delimited], hrest, ?_⟩
    intro t ht
    rcases List.mem_cons.mp ht with rfl | ht
    · exact hl
    · exact htexts t ht

theorem exists_delimited (s : List Char) : ∃ texts, s ++ ['\n'] = delimited texts ∧ ∀ x ∈ texts, '\n' ∉ x := by
  obtain ⟨texts, rest, hreads⟩ := lines.exists_reads (s ++ ['\n'])
  obtain ⟨hall, hrest, htexts⟩ := eq_of_reads hreads
  refine ⟨texts, ?_, htexts⟩
  rcases List.eq_nil_or_concat rest with rfl | ⟨more, c, rfl⟩
  · rw [hall, List.append_nil]
  · rw [List.concat_eq_append, ← List.append_assoc] at hall
    obtain ⟨-, hlast⟩ := List.append_inj' hall rfl
    obtain rfl : '\n' = c := by simpa using hlast
    exact absurd (by simp) hrest

theorem break_of_garbled {n : Nat} {s t : List Char} (h : Garbled n s t) : ∀ {s' : List Char}, s = s' ++ ['\n'] →
    ∃ t', t = t' ++ ['\n'] := by
  induction h with
  | nil =>
    intro s' hs
    cases s' <;> cases hs
  | @keep c n s t hst ih =>
    intro s' hs
    cases s' with
    | nil =>
      obtain ⟨rfl, rfl⟩ : c = '\n' ∧ s = [] := by simpa using hs
      cases hst
      exact ⟨[], rfl⟩
    | cons d s' =>
      obtain ⟨t', rfl⟩ := ih (List.cons.inj hs).2
      exact ⟨c :: t', rfl⟩
  | @cut c hc m _ n s t _ ih =>
    intro s' hs
    cases s' with
    | nil =>
      obtain ⟨rfl, rfl⟩ : c = '\n' ∧ s = [] := by simpa using hs
      exact absurd hc (by decide)
    | cons d s' =>
      obtain ⟨t', rfl⟩ := ih (List.cons.inj hs).2
      exact ⟨List.replicate m replacement ++ t', (List.append_assoc _ _ _).symm⟩

theorem delimited_of_garbled {n : Nat} {texts : List (List Char)} {t : List Char} (h : Garbled n (delimited texts) t) :
    ∃ texts', t = delimited texts' ∧ ∀ x ∈ texts', '\n' ∉ x := by
  rcases List.eq_nil_or_concat texts with rfl | ⟨more, last, rfl⟩
  · cases h
    exact ⟨[], rfl, by simp⟩
  · have hends : delimited (more.concat last) = (delimited more ++ last) ++ ['\n'] := by simp [delimited]
    obtain ⟨t', rfl⟩ := break_of_garbled h hends
    exact exists_delimited t'

end LineAux

/-- **Messages are read as they were written exactly where no chunk of the output ends inside a character**: whatever the parser makes of a
line, and whatever the chunks of the socket. -/
theorem delivered_iff (demuxStream : List (List UInt8) → List (List UInt8)) (hdemux : Demultiplexes demuxStream) (fs : List DockerFrame)
    (chunks : List (List UInt8)) (hchunks : chunks.flatten = fs.flatMap DockerFrame.encode) (texts : List (List Char))
    (htexts : ∀ t ∈ texts, '\n' ∉ t) (hstream : payloads 1 fs = encode (delimited texts)) :
    (∀ (Msg : Type) (parse : List Char → Option Msg),
        delivered parse (demuxStream chunks) = delivered parse [encode (delimited texts)]) ↔ CutsNoChar (demuxStream chunks) := by
  have hflat : (demuxStream chunks).flatten = encode (delimited texts) := (hdemux fs chunks hchunks).trans hstream
  obtain ⟨n, hgarbled, hn⟩ := decode_pieces hflat
  have hwhole : ∀ (Msg : Type) (parse : List Char → Option Msg),
      delivered parse [encode (delimited texts)] = texts.foldl (onLine parse) [] := by
    intro Msg parse
    exact delivered_eq htexts (by simp [decodeLossy_encode])
  rw [← hn]
  constructor
  · intro hsame
    obtain ⟨texts', ht', htexts'⟩ := delimited_of_garbled hgarbled
    -- a parser that takes every line tells the texts apart by their replacement characters
    have hlines := hsame (List Char) some
    rw [hwhole, delivered_eq htexts' ht', foldl_onLine, foldl_onLine, List.nil_append, List.nil_append] at hlines
    have hcount := hgarbled.count_le
    rw [ht', count_delimited, count_delimited, hlines] at hcount
    omega
  · rintro rfl Msg parse
    rw [hwhole, delivered_eq htexts hgarbled.eq]

/-- A demultiplexer that writes one chunk for each frame. -/
def demuxWhole (chunks : List (List UInt8)) : List (List UInt8) :=
  (chunks.foldl (frames.consume fun out frame => if frame.1 = 1 then out ++ [frame.2] else out) ([], [])).1

theorem demultiplexes_demuxWhole : Demultiplexes demuxWhole := by
  intro fs chunks h
  have hreads : frames.Reads (fs.flatMap DockerFrame.encode ++ []) (fs.map fun f => (f.type, f.payload)) [] := FrameAux.reads_frames fs rfl
  rw [List.append_nil, ← h] at hreads
  rw [demuxWhole, Incremental.Reader.consume_chunks _ (R := frames) rfl hreads]
  suffices hfold : ∀ out : List (List UInt8), ((fs.map fun f => (f.type, f.payload)).foldl
      (fun out frame => if frame.1 = 1 then out ++ [frame.2] else out) out).flatten = out.flatten ++ payloads 1 fs by
    simpa using hfold []
  clear hreads h
  induction fs with
  | nil => simp [payloads]
  | cons f fs ih =>
    intro out
    rw [List.map_cons, List.foldl_cons, ih, FrameAux.payloads_cons 1 f fs]
    by_cases hf : f.type = 1
    · simp [payloads, hf]
    · simp [payloads, hf]

/-- An answer in two frames, each in a chunk of its own. -/
theorem delivered_iff_two :
    (∀ (Msg : Type) (parse : List Char → Option Msg),
        delivered parse (demuxWhole [[1, 0, 0, 0, 0, 0, 0, 2, 91, 93], [1, 0, 0, 0, 0, 0, 0, 1, 10]]) =
          delivered parse [encode (delimited ["[]".toList])]) ↔
      CutsNoChar (demuxWhole [[1, 0, 0, 0, 0, 0, 0, 2, 91, 93], [1, 0, 0, 0, 0, 0, 0, 1, 10]]) :=
  delivered_iff demuxWhole demultiplexes_demuxWhole [⟨1, [91, 93], by decide⟩, ⟨1, [10], by decide⟩] _ (by decide +kernel) _
    (by decide +kernel) (by decide +kernel)

/-- The answer `\x7b"id":1,"result":"é"\x7d` in two frames that cut its `é`. -/
theorem delivered_false :
    ¬∀ (demuxStream : List (List UInt8) → List (List UInt8)), Demultiplexes demuxStream →
      ∀ (fs : List DockerFrame) (chunks : List (List UInt8)), chunks.flatten = fs.flatMap DockerFrame.encode →
        ∀ texts : List (List Char), (∀ t ∈ texts, '\n' ∉ t) → payloads 1 fs = encode (delimited texts) →
          ∀ (Msg : Type) (parse : List Char → Option Msg),
            delivered parse (demuxStream chunks) = delivered parse [encode (delimited texts)] := by
  intro h
  have hcut := h demuxWhole demultiplexes_demuxWhole
    [⟨1, [123, 34, 105, 100, 34, 58, 49, 44, 34, 114, 101, 115, 117, 108, 116, 34, 58, 34, 195], by decide +kernel⟩,
      ⟨1, [169, 34, 125, 10], by decide +kernel⟩]
    [[1, 0, 0, 0, 0, 0, 0, 19, 123, 34, 105, 100, 34, 58, 49, 44, 34, 114, 101, 115, 117, 108, 116, 34, 58, 34, 195],
      [1, 0, 0, 0, 0, 0, 0, 4, 169, 34, 125, 10]]
    rfl ["\x7b\"id\":1,\"result\":\"é\"\x7d".toList] (by decide +kernel) (by decide +kernel) (List Char) some
  exact absurd hcut (by decide +kernel)

end Capka.McpFraming

import TfsBroker.Lib.Lines
import TfsBroker.Protocol.Requests

/-!
# A session of the publisher (`publisher/pub.c`)

The publisher reads its standard input through a buffer of `MESSAGE_LENGTH` bytes and
sends what it read, without a newline, as one message. The request it sends is one
structure that it fills again for every message. The pipe takes every request whole;
otherwise the publisher ends its session.

## Main results

* `publishLoop_eq` — the messages are the lines, cut where the buffer is full
* `lines_published` — when every line is sent in as few messages as possible
* `frame_own` — when a request carries only its own message
-/

namespace TfsBroker.Publisher

open Mbroker (messageLength)
open Protocol Lines Copy

/-- `'\n'`. -/
def newline : UInt8 := 10

/-- The number of bytes that `fgets` takes from the stream, when there is room for `room`
bytes before the terminator: up to the newline, or the end of the stream, or the end of
the room. -/
def fgetsLength : ℕ → List UInt8 → ℕ
  | 0, _ => 0
  | _ + 1, [] => 0
  | room + 1, c :: cs => if c = newline then 1 else fgetsLength room cs + 1

/-- `fgets` into a buffer of `size` bytes: the string in the buffer and the rest of the
stream, or `none` at its end. -/
def fgets (size : ℕ) (stream : CString) : Option (CString × CString) :=
  if stream.strlen = 0 then none
  else
    let n := fgetsLength (size - 1) stream.bytes
    some (stream.truncate n, stream.drop n)

/-- A message that fits its array with its terminator. -/
structure Message where
  text : CString
  fits : text.strlen < messageLength

theorem fgetsLength_le (room : ℕ) (stream : List UInt8) : fgetsLength room stream ≤ room := by
  induction stream generalizing room with
  | nil => cases room <;> exact Nat.zero_le _
  | cons c cs ih =>
    cases room with
    | zero => exact le_rfl
    | succ room =>
      unfold fgetsLength
      split
      · exact Nat.succ_le_succ (Nat.zero_le _)
      · exact Nat.succ_le_succ (ih room)

theorem fgetsLength_pos {room : ℕ} {stream : List UInt8} (hroom : 0 < room) (h : stream ≠ []) :
    0 < fgetsLength room stream := by
  obtain ⟨room, rfl⟩ := Nat.exists_eq_add_one.mpr hroom
  obtain ⟨c, cs, rfl⟩ := List.exists_cons_of_ne_nil h
  unfold fgetsLength
  split
  · exact Nat.one_pos
  · exact Nat.succ_pos _

/-- What `fgets` reads fits its buffer, and it makes the stream shorter. -/
theorem fgets_eq_some {size : ℕ} {stream buffer rest : CString} (hsize : 1 < size)
    (h : fgets size stream = some (buffer, rest)) :
    buffer.strlen < size ∧ rest.strlen < stream.strlen := by
  unfold fgets at h
  split at h
  · cases h
  rename_i hne
  obtain ⟨rfl, rfl⟩ := Prod.mk.inj (Option.some_inj.mp h)
  have hbytes : stream.bytes ≠ [] := fun hnil => hne (List.length_eq_zero_iff.mpr hnil)
  have hle := fgetsLength_le (size - 1) stream.bytes
  have hpos : 0 < fgetsLength (size - 1) stream.bytes := fgetsLength_pos (by omega) hbytes
  constructor
  · rw [CString.strlen_truncate]
    omega
  · unfold CString.strlen at hne ⊢
    rw [CString.drop, List.length_drop]
    omega

theorem strlen_truncate_lt {buffer : CString} {n size : ℕ} (h : buffer.strlen < size) :
    (buffer.truncate n).strlen < size := by
  rw [CString.strlen_truncate]
  omega

/-- The loop of the publisher: the messages it sends. The newline and what follows it in
the buffer is overwritten with zeros. -/
def publishLoop (stream : CString) : List Message :=
  match h : fgets messageLength stream with
  | none => []
  | some (buffer, rest) =>
    have hread := fgets_eq_some (by decide) h
    ⟨buffer.truncate (buffer.strcspn newline), strlen_truncate_lt hread.1⟩ :: publishLoop rest
termination_by stream.strlen
decreasing_by exact hread.2

/-- The frames that the publisher writes to its pipe, one for each message, when the
request at the address `req` is filled again and again in the memory `m`. -/
def frames (req : ℕ) (m : Memory) : List Message → List (List UInt8)
  | [] => []
  | message :: messages =>
    let m := store m (publisherRequestInit req message.text)
    Memory.slice m req publisherRequestSize :: frames req m messages

/-! ### Lines -/

section Loop

variable {stream rest : CString} {room : ℕ} {text tail : List UInt8} {l : Line UInt8}

/-- `fgets` takes the bytes of a line that there is room for, and only then looks further. -/
theorem fgetsLength_append (h : newline ∉ text) : fgetsLength room (text ++ tail) =
    if room ≤ text.length then room else text.length + fgetsLength (room - text.length) tail := by
  induction text generalizing room with
  | nil =>
    cases room with
    | zero => rfl
    | succ room => simp
  | cons c text ih =>
    obtain ⟨hc, htext⟩ := not_or.mp (fun hmem => h (List.mem_cons.mpr hmem))
    cases room with
    | zero => rfl
    | succ room =>
      rw [List.cons_append, fgetsLength, if_neg (Ne.symm hc), ih htext, List.length_cons]
      split
      · rw [if_pos (by omega)]
      · rw [if_neg (by omega), Nat.succ_sub_succ]
        omega

theorem publishLoop_nil (h : stream.bytes = []) : publishLoop stream = [] := by
  have hread : fgets messageLength stream = none := if_pos (List.length_eq_zero_iff.mpr h)
  rw [publishLoop]
  split
  · rfl
  · rename_i heq
    rw [hread] at heq
    cases heq

/-- One turn of the loop. -/
theorem publishLoop_step (h : stream.bytes ≠ []) :
    (publishLoop stream).map (fun message => message.text.bytes) =
      (stream.bytes.take (fgetsLength (messageLength - 1) stream.bytes)).takeWhile (· ≠ newline) ::
        (publishLoop (stream.drop (fgetsLength (messageLength - 1) stream.bytes))).map
          fun message => message.text.bytes := by
  have hread : fgets messageLength stream =
      some (stream.truncate (fgetsLength (messageLength - 1) stream.bytes),
        stream.drop (fgetsLength (messageLength - 1) stream.bytes)) :=
    if_neg fun hzero => h (List.length_eq_zero_iff.mp hzero)
  rw [publishLoop]
  split
  · rename_i heq
    rw [hread] at heq
    cases heq
  · rename_i buffer rest heq
    rw [hread] at heq
    obtain ⟨rfl, rfl⟩ := Prod.mk.inj (Option.some_inj.mp heq)
    rw [List.map_cons]
    congr 1
    exact (List.prefix_iff_eq_take.mp (List.takeWhile_prefix _)).symm

theorem takeWhile_line (h : newline ∉ text) (tail : List UInt8) :
    (text ++ newline :: tail).takeWhile (· ≠ newline) = text := by
  rw [List.takeWhile_append_of_pos, List.takeWhile_cons_of_neg (by simp), List.append_nil]
  intro c hc
  simpa using fun heq : c = newline => h (heq ▸ hc)

theorem takeWhile_text (h : newline ∉ text) : text.takeWhile (· ≠ newline) = text := by
  rw [← List.append_nil text, List.takeWhile_append_of_pos, List.takeWhile_nil]
  intro c hc
  simpa using fun heq : c = newline => h (heq ▸ hc)

/-- The newline is in the buffer, or the end of the stream. -/
theorem publishLoop_last (htext : newline ∉ l.text) (hlast : l.ended = false → rest.bytes = [])
    (hstream : stream.bytes = l.source newline ++ rest.bytes)
    (hlt : l.text.length < messageLength - 1) :
    (publishLoop stream).map (fun message => message.text.bytes) =
      cut (messageLength - 1) l ++ (publishLoop rest).map fun message => message.text.bytes := by
  rw [cut_of_lt hlt]
  cases hend : l.ended with
  | true =>
    have hbytes : stream.bytes = l.text ++ newline :: rest.bytes := by
      rw [hstream, Line.source, hend, if_pos rfl, List.append_assoc]
      rfl
    obtain ⟨room, hroom⟩ : ∃ room, messageLength - 1 - l.text.length = room + 1 :=
      ⟨_, (Nat.succ_pred_eq_of_pos (Nat.sub_pos_of_lt hlt)).symm⟩
    have htaken : fgetsLength (messageLength - 1) stream.bytes = l.text.length + 1 := by
      rw [hbytes, fgetsLength_append htext, if_neg (not_le.mpr hlt), hroom, fgetsLength, if_pos rfl]
    have hdrop : stream.drop (l.text.length + 1) = rest := by
      ext1
      rw [CString.bytes_drop, hbytes, ← List.drop_drop, List.drop_left]
      rfl
    have htake : stream.bytes.take (l.text.length + 1) = l.text ++ newline :: [] := by
      rw [hbytes, List.take_length_add_append]
      rfl
    have hne : stream.bytes ≠ [] := by
      rw [hbytes]
      exact List.append_ne_nil_of_right_ne_nil _ (List.cons_ne_nil _ _)
    rw [publishLoop_step hne, htaken, hdrop, htake, takeWhile_line htext]
    rfl
  | false =>
    have hbytes : stream.bytes = l.text := by
      rw [hstream, Line.source, hend, hlast hend]
      simp
    rw [publishLoop_nil (hlast hend)]
    by_cases hnil : l.text = []
    · rw [publishLoop_nil (hbytes.trans hnil), hnil]
      rfl
    have htaken : fgetsLength (messageLength - 1) stream.bytes = l.text.length := by
      rw [hbytes, ← List.append_nil l.text, fgetsLength_append htext, List.append_nil,
        if_neg (not_le.mpr hlt)]
      cases messageLength - 1 - l.text.length <;> rfl
    have hdrop : (stream.drop l.text.length).bytes = [] := by
      rw [CString.bytes_drop, hbytes, List.drop_length]
    rw [publishLoop_step (hbytes ▸ hnil), htaken, publishLoop_nil hdrop, hbytes, List.take_length,
      takeWhile_text htext, if_pos (.inr hnil)]
    rfl

/-- The publisher sends the pieces of a line, and then the rest. -/
theorem publishLoop_line (htext : newline ∉ l.text) (hlast : l.ended = false → rest.bytes = [])
    (hstream : stream.bytes = l.source newline ++ rest.bytes) :
    (publishLoop stream).map (fun message => message.text.bytes) =
      cut (messageLength - 1) l ++ (publishLoop rest).map fun message => message.text.bytes := by
  have hpos : 0 < messageLength - 1 := by decide
  induction l using cut_induction hpos generalizing stream with
  | last l hlt => exact publishLoop_last htext hlast hstream hlt
  | more l hge ih =>
    have hbytes : stream.bytes = l.text ++ ((if l.ended then [newline] else []) ++ rest.bytes) := by
      rw [hstream, Line.source, List.append_assoc]
    have htaken : fgetsLength (messageLength - 1) stream.bytes = messageLength - 1 := by
      rw [hbytes, fgetsLength_append htext, if_pos hge]
    have htake : stream.bytes.take (messageLength - 1) = l.text.take (messageLength - 1) := by
      rw [hbytes, List.take_append_of_le_length hge]
    have hne : stream.bytes ≠ [] := by
      rw [hbytes]
      exact List.append_ne_nil_of_left_ne_nil (List.ne_nil_of_length_pos (hpos.trans_le hge)) _
    -- the buffer is full before the newline, and the rest of the line is read next
    have hrest : (stream.drop (messageLength - 1)).bytes =
        Line.source newline ⟨l.text.drop (messageLength - 1), l.ended⟩ ++ rest.bytes := by
      rw [CString.bytes_drop, hbytes, List.drop_append_of_le_length hge, Line.source,
        List.append_assoc]
    rw [cut_of_le hpos hge, List.cons_append, publishLoop_step hne, htaken, htake,
      takeWhile_text fun hmem => htext (List.mem_of_mem_take hmem),
      ih (fun hmem => htext (List.mem_of_mem_drop hmem)) hlast hrest]

/-- The messages are the lines of the stream, cut where the buffer is full. -/
theorem publishLoop_eq (stream : CString) :
    (publishLoop stream).map (fun message => message.text.bytes) =
      (split newline stream.bytes).flatMap (cut (messageLength - 1)) := by
  refine split_induction (P := fun s ls => ∀ stream : CString, stream.bytes = s →
    (publishLoop stream).map (fun message => message.text.bytes) =
      ls.flatMap (cut (messageLength - 1))) newline ?_ ?_ stream.bytes stream rfl
  · intro stream hnil
    rw [publishLoop_nil hnil]
    rfl
  · intro l rest hfirst ih stream hstream
    have hnul : 0 ∉ rest := fun hmem =>
      stream.nul_free (hstream ▸ List.mem_append_right _ hmem)
    rw [List.flatMap_cons, ← ih ⟨rest, hnul⟩ rfl]
    exact publishLoop_line hfirst.text (fun hend => (hfirst.last hend).2) hstream

end Loop

/-! ### Requests -/

section Requests

variable {req k : ℕ} {m m' : Memory} {w : Message} {ws ws' : List Message}

/-- The frame number `k` is the request filled with the message number `k`, over what the
messages before it left: behind all of them, what the memory held at the start. -/
theorem frames_getElem? (req : ℕ) (m : Memory) (h : ws[k]? = some w) : ∃ m' : Memory,
    (∀ j, (∀ v ∈ ws, v.text.strlen < j) →
      m' (req + messageOffset + j) = m (req + messageOffset + j)) ∧
    (frames req m ws)[k]? =
      some (Memory.slice (store m' (publisherRequestInit req w.text)) req publisherRequestSize) := by
  induction ws generalizing m k with
  | nil => cases h
  | cons v ws ih =>
    cases k with
    | zero =>
      obtain rfl := Option.some_inj.mp h
      exact ⟨m, fun _ _ => rfl, rfl⟩
    | succ k =>
      obtain ⟨m', hm', hframe⟩ := ih (store m (publisherRequestInit req v.text)) h
      refine ⟨m', fun j hj => ?_, hframe⟩
      have hv := hj v List.mem_cons_self
      rw [hm' j fun v hv => hj v (List.mem_cons_of_mem _ hv), publisherRequestInit_message,
        if_neg (not_le.mpr hv)]

/-- The message in a frame. -/
def messageOf (frame : List UInt8) : List UInt8 := (Wire.ofArray (frame.drop messageOffset)).bytes

/-- Every frame holds its message. -/
theorem messageOf_frames : (frames req m ws).map messageOf = ws.map fun w => w.text.bytes := by
  induction ws generalizing m with
  | nil => rfl
  | cons w ws ih =>
    rw [frames, List.map_cons, List.map_cons, ih, messageOf, slice_publisherRequest, messageOffset,
      List.drop_succ_cons, List.drop_zero, ← messageOffset,
      Wire.ofArray_slice (holdsAt_publisherRequestInit w.fits)]

end Requests

/-- Every line of the stream is sent in as few requests as possible, in order. -/
def Published (req : ℕ) (m : Memory) (stream : CString) : Prop :=
  ∃ parts, (frames req m (publishLoop stream)).map messageOf = parts.flatten ∧
    List.Forall₂ (Exact (messageLength - 1)) (split newline stream.bytes) parts

/-- The requests hold the lines of the stream, cut where the buffer is full. -/
theorem messageOf_publishLoop (req : ℕ) (m : Memory) (stream : CString) :
    (frames req m (publishLoop stream)).map messageOf =
      (split newline stream.bytes).flatMap (cut (messageLength - 1)) := by
  rw [messageOf_frames, publishLoop_eq]

/-- The publisher sends every line in as few requests as possible exactly if no line has its
newline right behind a message of full length. -/
theorem lines_published (req : ℕ) (m : Memory) (stream : CString) :
    Published req m stream ↔
      ∀ l ∈ split newline stream.bytes, ¬ l.Overfull (messageLength - 1) := by
  rw [Published, messageOf_publishLoop]
  exact cutAll_exact_iff (by decide) (ended_or_ne_nil newline stream.bytes)

/-- A line of 1023 characters. -/
private def fullLine : Line UInt8 := ⟨List.replicate 1023 97, true⟩

/-- The line of 1023 characters as a stream. -/
def fullStream : CString where
  bytes := List.replicate 1023 97 ++ [newline]
  nul_free h := by
    rcases List.mem_append.mp h with h | h
    · exact absurd (List.eq_of_mem_replicate h) (by decide)
    · exact absurd (List.mem_singleton.mp h) (by decide)

private theorem split_fullStream : split newline fullStream.bytes = [fullLine] := by
  decide +kernel

/-- A line that just fills a message is followed by an empty one. -/
theorem full_line_published_twice : ¬ Published 0 (fun _ => 0) fullStream ∧
    (frames 0 (fun _ => 0) (publishLoop fullStream)).map messageOf =
      [List.replicate 1023 97, []] := by
  have hlen : fullLine.text.length = messageLength - 1 := List.length_replicate
  constructor
  · intro h
    rw [Published, messageOf_publishLoop] at h
    have hall := (cutAll_exact_iff (by decide) (ended_or_ne_nil newline fullStream.bytes)).mp h
    refine hall fullLine (by rw [split_fullStream]; exact List.mem_singleton_self _) ⟨rfl, ?_, ?_⟩
    · rw [hlen]
      decide
    · rw [hlen]
  · rw [messageOf_publishLoop, split_fullStream, List.flatMap_singleton,
      cut_of_le (by decide) hlen.ge, ← hlen, List.take_length, List.drop_length,
      cut_of_lt (by rw [hlen]; decide)]
    rfl

/-! ### What a frame shows -/

/-- The frame number `k` is determined by its message `w`, whatever the request held and
whatever the other messages of the session are. -/
def OwnFrame (req k : ℕ) (w : Message) : Prop :=
  ∀ m m' ws ws', ws[k]? = some w → ws'[k]? = some w →
    (frames req m ws)[k]? = (frames req m' ws')[k]?

/-- An empty message. -/
def Message.empty : Message := ⟨.empty, by decide⟩

/-- A frame shows the last byte of the memory behind a shorter message. -/
theorem OwnFrame.strlen_eq {req k : ℕ} {w : Message} (h : OwnFrame req k w) :
    w.text.strlen = messageLength - 1 := by
  by_contra hne
  have hshort : w.text.strlen < messageLength - 1 := by
    have := w.fits
    omega
  let ws : List Message := List.replicate k .empty ++ [w]
  have hk : ws[k]? = some w := by simp [ws]
  have hbeside : ∀ v ∈ ws, v.text.strlen < messageLength - 1 := by
    intro v hv
    rcases List.mem_append.mp hv with hv | hv
    · rw [List.eq_of_mem_replicate hv]
      decide
    · rw [List.mem_singleton.mp hv]
      exact hshort
  obtain ⟨m, hm, hframe⟩ := frames_getElem? req (fun _ => 0) hk
  obtain ⟨m', hm', hframe'⟩ := frames_getElem? req (fun _ => 1) hk
  have heq := h (fun _ => 0) (fun _ => 1) ws ws hk hk
  rw [hframe, hframe', Option.some_inj, Memory.slice_eq_iff] at heq
  have hbyte := heq (req + messageOffset + (messageLength - 1)) (by omega) (by
    simp only [publisherRequestSize, messageLength]
    omega)
  rw [publisherRequestInit_message, if_neg (not_le.mpr hshort), hm _ hbeside,
    publisherRequestInit_message, if_neg (not_le.mpr hshort), hm' _ hbeside] at hbyte
  exact absurd hbyte (by decide)

/-- A frame carries only its own message exactly if the message has the full length. -/
theorem frame_own (req k : ℕ) (w : Message) :
    OwnFrame req k w ↔ w.text.strlen = messageLength - 1 := by
  constructor
  · exact OwnFrame.strlen_eq
  · intro hfull m m' ws ws' hk hk'
    obtain ⟨n, -, hframe⟩ := frames_getElem? req m hk
    obtain ⟨n', -, hframe'⟩ := frames_getElem? req m' hk'
    have hlen : messageLength = w.text.strlen + 1 := by rw [hfull]; rfl
    have hmessage : ∀ m : Memory, Memory.slice (store m (publisherRequestInit req w.text))
        (req + messageOffset) messageLength = w.text.terminated := by
      intro m
      rw [hlen]
      exact beq_iff_eq.mp (CString.strcmpEq_iff.mpr (holdsAt_publisherRequestInit w.fits).2)
    rw [hframe, hframe', slice_publisherRequest, slice_publisherRequest, hmessage, hmessage,
      publisherRequestInit_opCode, publisherRequestInit_opCode]

/-- A message of six bytes. -/
private def secret : Message := ⟨Wire.ofArray [115, 101, 99, 114, 101, 116], by decide⟩

/-- A message of one byte. -/
private def short : Message := ⟨Wire.ofArray [97], by decide⟩

/-- A short message shows what is left of the one before it. -/
theorem frame_shows_secret : ¬ OwnFrame 0 1 short ∧
    (frames 0 (fun _ => 0) [secret, short])[1]? ≠ (frames 0 (fun _ => 0) [short, short])[1]? := by
  constructor
  · intro h
    exact absurd h.strlen_eq (by decide)
  · intro h
    have hbyte := Memory.slice_eq_iff.mp (Option.some_inj.mp h) 3 (by decide) (by decide)
    exact absurd hbyte (by decide)

end TfsBroker.Publisher

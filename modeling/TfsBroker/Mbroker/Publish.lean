import TfsBroker.Lib.Wire
import TfsBroker.Mbroker.Box
import TfsBroker.Fs2.Files

/-!
# What publishing a message leaves in the file of the box

`write_message` writes the message and its terminator one after the other, and
`tfs_write` writes as much as the block of the file holds. A message that does not
fit leaves its first bytes behind, and one that just fits loses its terminator.

## Main results

* `publish_all_or_nothing` — when a message is published whole or not at all
* `publish_splits` — two messages for which it is neither
-/

namespace TfsBroker.Mbroker

open Fs2 State

variable {s : State} {box : Box} {message : CString} {k b n fh : ℕ}

/-- `fh` is the handle of the only publisher of a box in use: it is open on the file of
the box and stands at its end. -/
structure PublisherAt (s : State) (box : Box) (fh k : ℕ) : Prop extends OpenFile s fh k where
  used : box.allocState = .USED
  names : tfsLookup s (some box.name) rootDirInum = .ret k
  atEnd : (s.openFileTable fh).ofOffset = (s.inodeTable k).iSize
  size_lt : box.size < sizeRange

/-- The message is published whole, or not at all, and the size of the box is that of
its file afterwards. -/
def AllOrNothing (s : State) (box : Box) (fh k : ℕ) (message : CString) : Prop :=
  ∃ ret box' s', publish s box fh message = .ret (ret, box', s') ∧
    (if ret = -1 then fileContents s' k = fileContents s k
      else fileContents s' k = fileContents s k ++ message.terminated) ∧
    box'.size = (fileContents s' k).length

/-- There is room for the message and its terminator, or nothing of it can be
written. -/
def FitsOrRefused (s : State) (k : ℕ) (message : CString) : Prop :=
  (s.inodeTable k).iSize + message.strlen < s.blockSize ∨
    ((s.inodeTable k).iSize = s.blockSize ∧ 0 < message.strlen) ∨
    ((s.inodeTable k).iSize = 0 ∧ firstFree s.freeBlocks s.dataBlocks = none)

/-! ### The two writes -/

/-- Writing at the end twice is writing both at once. -/
theorem appended_appended (hn : 0 < n) {message : CString} (hlen : message.strlen = n) :
    appended (appended s fh k b n message.byteAt) fh k b 1 (fun _ => 0) =
      appended s fh k b (n + 1) message.byteAt := by
  have hdata : (s.fsData.memcpy (b * s.blockSize + (s.inodeTable k).iSize) n message.byteAt).memcpy
      (b * s.blockSize + ((s.inodeTable k).iSize + n)) 1 (fun _ => 0) =
        s.fsData.memcpy (b * s.blockSize + (s.inodeTable k).iSize) (n + 1) message.byteAt := by
    funext x
    by_cases hx : x = b * s.blockSize + (s.inodeTable k).iSize + n
    · -- the byte of the terminator
      rw [Memory.memcpy_of_mem (by omega) (by omega), Memory.memcpy_of_mem (by omega) (by omega),
        CString.byteAt_of_ge (by omega)]
    · rw [Memory.memcpy_of_not_mem (by omega)]
      simp only [Memory.memcpy]
      congr 1
      apply propext
      omega
  have hsize : (s.inodeTable k).iSize + n ≠ 0 := by omega
  simp only [appended, Function.update_self, Function.update_idem, hsize, if_false, Nat.add_assoc]
  exact congrArg (fun m => State.mk s.fsParams _ _ m _ _ _) hdata

theorem atEnd_appended {buffer : ℕ → UInt8} :
    ((appended s fh k b n buffer).openFileTable fh).ofOffset =
      ((appended s fh k b n buffer).inodeTable k).iSize := by
  simp [appended]

theorem size_lt_of_message (h : OpenFile s fh k) (hmessage : message.strlen < messageLength) :
    message.strlen + (s.inodeTable k).iSize + 1 < sizeRange := by
  have hsize := h.size_le
  have hindex := s.fsParams.entry_index
  have hint : intMax = 2147483647 := rfl
  have hentry : dirEntrySize = 44 := rfl
  rw [hint, hentry] at hindex
  have hblock : s.blockSize = s.fsParams.blockSize := rfl
  have hrange : sizeRange = 18446744073709551616 := rfl
  have hlength : messageLength = 1024 := rfl
  omega

theorem writeMessage_eq {r : ℤ} {s' : State}
    (hwrite : tfsWrite s fh message.byteAt message.strlen = .ret (r, s')) :
    writeMessage s fh message =
      if r ≠ message.strlen then .ret (-1, s')
      else
        (tfsWrite s' fh (fun _ => 0) 1).bind fun (r', s') =>
          if r' = -1 then .ret (-1, s') else .ret (r, s') := by
  rw [writeMessage, hwrite, Outcome.ret_bind]

/-- The write of the terminator. -/
theorem tfsWrite_terminator (h : OpenFile s fh k)
    (hend : (s.openFileTable fh).ofOffset = (s.inodeTable k).iSize) :
    ((s.inodeTable k).iSize = s.blockSize ∧ tfsWrite s fh (fun _ => 0) 1 = .ret (0, s)) ∨
    ((s.inodeTable k).iSize = 0 ∧ firstFree s.freeBlocks s.dataBlocks = none ∧
      tfsWrite s fh (fun _ => 0) 1 = .ret (-1, s)) ∨
    ∃ b, (s.inodeTable k).iSize < s.blockSize ∧ Fs.WriteBlock s.toFs k b ∧
      tfsWrite s fh (fun _ => 0) 1 = .ret (1, appended s fh k b 1 fun _ => 0) := by
  have hsize := h.size_le
  have hsum : 1 + (s.inodeTable k).iSize < sizeRange := by
    have hempty : CString.empty.strlen < messageLength := by decide
    have := size_lt_of_message h hempty
    omega
  rcases h.tfsWrite_end (fun _ => 0) hend hsum rfl with
    ⟨hn, hwrite⟩ | ⟨-, hempty, hnone, hwrite⟩ | ⟨b, hn, hb, hwrite⟩
  · exact .inl ⟨by omega, hwrite⟩
  · exact .inr (.inl ⟨hempty, hnone, hwrite⟩)
  · have hone : min 1 (s.blockSize - (s.inodeTable k).iSize) = 1 := by omega
    rw [hone] at hwrite
    exact .inr (.inr ⟨b, by omega, hb, hwrite⟩)

/-- The message and its terminator fit: both are written, unless the file needs a block
and there is none. -/
theorem writeMessage_fits (h : OpenFile s fh k)
    (hend : (s.openFileTable fh).ofOffset = (s.inodeTable k).iSize)
    (hmessage : message.strlen < messageLength)
    (hroom : (s.inodeTable k).iSize + message.strlen < s.blockSize) :
    ((s.inodeTable k).iSize = 0 ∧ firstFree s.freeBlocks s.dataBlocks = none ∧
      writeMessage s fh message = .ret (-1, s)) ∨
    ∃ b, Fs.WriteBlock s.toFs k b ∧ writeMessage s fh message =
      .ret (message.strlen, appended s fh k b (message.strlen + 1) message.byteAt) := by
  have hsum : message.strlen + (s.inodeTable k).iSize < sizeRange := by
    have := size_lt_of_message h hmessage
    omega
  rcases h.tfsWrite_end message.byteAt hend hsum rfl
    with ⟨hn, hwrite⟩ | ⟨hn, hempty, hnone, hwrite⟩ | ⟨b, hn, hb, hwrite⟩
  · -- the empty message
    have hzero : message.strlen = 0 := by omega
    rw [writeMessage_eq hwrite, hzero]
    rcases tfsWrite_terminator h hend with ⟨hfull, -⟩ | ⟨hempty, hnone, hone⟩ | ⟨b, -, hb, hone⟩
    · omega
    · exact .inl ⟨hempty, hnone, by simp [hone]⟩
    · refine .inr ⟨b, hb, ?_⟩
      have hnul : message.byteAt = fun _ => 0 := by
        funext i
        exact CString.byteAt_of_ge (by omega)
      simp [hone, hnul]
  · refine .inl ⟨hempty, hnone, ?_⟩
    rw [writeMessage_eq hwrite, if_pos (by omega)]
  · have hall : min message.strlen (s.blockSize - (s.inodeTable k).iSize) = message.strlen := by
      omega
    rw [hall] at hn hwrite
    refine .inr ⟨b, hb, ?_⟩
    rw [writeMessage_eq hwrite, if_neg (by simp)]
    -- the terminator follows in the same block
    have hopen := h.appended message.byteAt hb.lt hroom.le h.on
    have hsize : ((appended s fh k b message.strlen message.byteAt).inodeTable k).iSize =
      (s.inodeTable k).iSize + message.strlen := by simp [appended]
    have hblocks : (appended s fh k b message.strlen message.byteAt).blockSize = s.blockSize := rfl
    rcases tfsWrite_terminator hopen atEnd_appended with
      ⟨hfull, -⟩ | ⟨hempty, -⟩ | ⟨c, -, hc, hone⟩
    · omega
    · omega
    · obtain rfl : b = c := by
        rw [Fs.WriteBlock, if_neg (by simp [appended]; omega)] at hc
        have hbc := hc.1
        simp only [State.toFs_inodeTable, Inode.toFs_iDataBlock, appended, Function.update_self] at hbc
        exact_mod_cast hbc
      rw [hone, appended_appended hn rfl]
      simp

/-- The file is full: nothing is written, and an empty message is taken for written. -/
theorem writeMessage_full (h : OpenFile s fh k)
    (hend : (s.openFileTable fh).ofOffset = (s.inodeTable k).iSize)
    (hmessage : message.strlen < messageLength) (hfull : (s.inodeTable k).iSize = s.blockSize) :
    writeMessage s fh message = .ret (if message.strlen = 0 then 0 else -1, s) := by
  have hsum : message.strlen + (s.inodeTable k).iSize < sizeRange := by
    have := size_lt_of_message h hmessage
    omega
  have hblock := s.fsParams.blockSize_pos
  have hpos : 0 < s.blockSize := hblock
  rcases h.tfsWrite_end message.byteAt hend hsum rfl
    with ⟨hn, hwrite⟩ | ⟨hn, -⟩ | ⟨b, hn, -⟩
  · rw [writeMessage_eq hwrite]
    by_cases hzero : message.strlen = 0
    · rcases tfsWrite_terminator h hend with ⟨-, hone⟩ | ⟨hempty, -⟩ | ⟨b, hlt, -⟩
      · simp [hzero, hone]
      · omega
      · omega
    · rw [if_pos (by omega), if_neg hzero]
  · omega
  · omega

/-- The message leaves no room for its terminator: what fits is written, and the
message is taken for written if all of it was. -/
theorem writeMessage_cut (h : OpenFile s fh k)
    (hend : (s.openFileTable fh).ofOffset = (s.inodeTable k).iSize)
    (hmessage : message.strlen < messageLength) (hlt : (s.inodeTable k).iSize < s.blockSize)
    (hroom : s.blockSize ≤ (s.inodeTable k).iSize + message.strlen) :
    ((s.inodeTable k).iSize = 0 ∧ firstFree s.freeBlocks s.dataBlocks = none ∧
      writeMessage s fh message = .ret (-1, s)) ∨
    ∃ b, Fs.WriteBlock s.toFs k b ∧ writeMessage s fh message =
      .ret (if s.blockSize = (s.inodeTable k).iSize + message.strlen then message.strlen else -1,
        appended s fh k b (s.blockSize - (s.inodeTable k).iSize) message.byteAt) := by
  have hsum : message.strlen + (s.inodeTable k).iSize < sizeRange := by
    have := size_lt_of_message h hmessage
    omega
  rcases h.tfsWrite_end message.byteAt hend hsum rfl
    with ⟨hn, -⟩ | ⟨hn, hempty, hnone, hwrite⟩ | ⟨b, hn, hb, hwrite⟩
  · omega
  · refine .inl ⟨hempty, hnone, ?_⟩
    rw [writeMessage_eq hwrite, if_pos (by omega)]
  · have hpart : min message.strlen (s.blockSize - (s.inodeTable k).iSize) =
      s.blockSize - (s.inodeTable k).iSize := by omega
    rw [hpart] at hn hwrite
    refine .inr ⟨b, hb, ?_⟩
    rw [writeMessage_eq hwrite]
    by_cases hall : s.blockSize = (s.inodeTable k).iSize + message.strlen
    · rw [if_neg (by omega), if_pos hall]
      -- the file is full now
      have hopen := h.appended (n := s.blockSize - (s.inodeTable k).iSize) message.byteAt hb.lt
        (by omega) h.on
      generalize hu : appended s fh k b (s.blockSize - (s.inodeTable k).iSize) message.byteAt = u
        at hopen ⊢
      have hsize : (u.inodeTable k).iSize = u.blockSize := by
        rw [← hu]
        simp only [appended, Function.update_self]
        exact Nat.add_sub_cancel' h.size_le
      have hu0 : 0 < u.blockSize := u.fsParams.blockSize_pos
      rcases tfsWrite_terminator hopen (by rw [← hu]; exact atEnd_appended) with
        ⟨-, hone⟩ | ⟨hempty, -⟩ | ⟨c, hlt, -⟩
      · simp [hone]
        omega
      · omega
      · omega
    · rw [if_pos (by omega), if_neg hall]

/-! ### Whole or not at all -/

theorem publish_eq {ret : ℤ} {s' : State} (box : Box)
    (h : writeMessage s fh message = .ret (ret, s')) :
    publish s box fh message = .ret (ret,
      if ret = -1 then box else { box with size := (box.size + ret.toNat + 1) % sizeRange }, s') := by
  rw [publish, h, Outcome.ret_bind]
  dsimp only
  split <;> rfl

/-- What has to hold of the state that `write_message` leaves. -/
theorem allOrNothing_iff {ret : ℤ} {s' : State} (h : writeMessage s fh message = .ret (ret, s')) :
    AllOrNothing s box fh k message ↔
      (if ret = -1 then
        fileContents s' k = fileContents s k ∧ box.size = (fileContents s k).length
      else fileContents s' k = fileContents s k ++ message.terminated ∧
        (box.size + ret.toNat + 1) % sizeRange = (fileContents s' k).length) := by
  have heq := publish_eq box h
  constructor
  · rintro ⟨ret', box', u, hpublish, hfile, hsize⟩
    obtain ⟨rfl, hrest⟩ := Prod.mk.inj (Outcome.ret.inj (heq.symm.trans hpublish))
    obtain ⟨rfl, rfl⟩ := Prod.mk.inj hrest
    split
    · rename_i hret
      rw [if_pos hret] at hfile hsize
      exact ⟨hfile, hfile ▸ hsize⟩
    · rename_i hret
      rw [if_neg hret] at hfile hsize
      exact ⟨hfile, hsize⟩
  · intro hall
    refine ⟨_, _, _, heq, ?_⟩
    split at hall
    · rename_i hret
      rw [if_pos hret, if_pos hret, hall.1]
      exact ⟨rfl, hall.2⟩
    · rename_i hret
      rw [if_neg hret, if_neg hret]
      exact hall

/-- A message is published whole or not at all exactly when the size of the box was
that of its file and the message fits with its terminator, or nothing of it can be
written. -/
theorem publish_all_or_nothing (h : PublisherAt s box fh k)
    (hmessage : message.strlen < messageLength) :
    AllOrNothing s box fh k message ↔
      box.size = (s.inodeTable k).iSize ∧ FitsOrRefused s k message := by
  have hle := h.size_le
  have hblt := blockSize_lt s
  have hmsg : messageLength = 1024 := rfl
  have hsum := size_lt_of_message h.toOpenFile hmessage
  have hlen := length_fileContents (s := s) (k := k)
  -- nothing is written
  have hnothing : ∀ {s'}, s' = s → writeMessage s fh message = .ret (-1, s') →
      FitsOrRefused s k message →
      (AllOrNothing s box fh k message ↔
        box.size = (s.inodeTable k).iSize ∧ FitsOrRefused s k message) := by
    rintro s' rfl hwrite hfits
    rw [allOrNothing_iff hwrite, if_pos rfl, hlen]
    simp [hfits]
  by_cases hroom : (s.inodeTable k).iSize + message.strlen < s.blockSize
  · rcases writeMessage_fits h.toOpenFile h.atEnd hmessage hroom with
      ⟨-, -, hwrite⟩ | ⟨b, hb, hwrite⟩
    · exact hnothing rfl hwrite (.inl hroom)
    · -- the message is written whole
      rw [allOrNothing_iff hwrite, if_neg (by omega), length_fileContents,
        fileContents_appended hb, ← CString.terminated_eq_map]
      simp only [appended, Function.update_self, true_and, Int.toNat_natCast]
      have hfits : FitsOrRefused s k message := .inl hroom
      have hsize := h.size_lt
      simp only [hfits, and_true]
      have hrange : sizeRange = 18446744073709551616 := rfl
      rw [hrange] at hsize hsum ⊢
      omega
  by_cases hfull : (s.inodeTable k).iSize = s.blockSize
  · have hwrite := writeMessage_full h.toOpenFile h.atEnd hmessage hfull
    by_cases hzero : message.strlen = 0
    · -- an empty message is taken for written
      rw [if_pos hzero] at hwrite
      rw [allOrNothing_iff hwrite, if_neg (by omega)]
      have hpos : 0 < s.blockSize := s.fsParams.blockSize_pos
      have hfits : ¬ FitsOrRefused s k message := by
        rintro (hlt | ⟨-, hlt⟩ | ⟨hempty, -⟩) <;> omega
      have hne : fileContents s k ≠ fileContents s k ++ message.terminated := by
        intro heq
        have := congrArg List.length heq
        simp at this
      simp [hfits, hne]
    · rw [if_neg hzero] at hwrite
      exact hnothing rfl hwrite (.inr (.inl ⟨hfull, by omega⟩))
  rcases writeMessage_cut h.toOpenFile h.atEnd hmessage (by omega) (by omega) with
    ⟨hempty, hnone, hwrite⟩ | ⟨b, hb, hwrite⟩
  · exact hnothing rfl hwrite (.inr (.inr ⟨hempty, hnone⟩))
  · -- some of it is written, and no terminator
    have hfits : ¬ FitsOrRefused s k message := by
      rintro (hlt | ⟨hlt, -⟩ | ⟨hempty, hnone⟩)
      · omega
      · omega
      · rw [Fs.WriteBlock, if_pos (by exact hempty)] at hb
        cases hnone.symm.trans hb
    simp only [hfits, and_false, iff_false]
    have hlength : (fileContents (appended s fh k b (s.blockSize - (s.inodeTable k).iSize)
        message.byteAt) k).length = s.blockSize := by
      simp only [length_fileContents, appended, Function.update_self]
      omega
    by_cases hall : s.blockSize = (s.inodeTable k).iSize + message.strlen
    · rw [if_pos hall] at hwrite
      rw [allOrNothing_iff hwrite, if_neg (by omega)]
      rintro ⟨heq, -⟩
      rw [heq, List.length_append, hlen, CString.length_terminated] at hlength
      omega
    · rw [if_neg hall] at hwrite
      rw [allOrNothing_iff hwrite, if_pos rfl]
      rintro ⟨heq, -⟩
      rw [heq, hlen] at hlength
      omega

/-! ### Two messages -/

/-- The box `/a` and the file system, after its publisher opened it. -/
private def opened : Option (Box × State) :=
  (handleManager .fresh createBoxOp (Wire.ofArray [97])).bind fun (_, m) =>
    (tfsOpen m.tfs (some (m.mbrokerBoxes 0).name) tfsOAppend).toOption.map fun (_, s) =>
      (m.mbrokerBoxes 0, s)

/-- The same after the publisher sent messages. -/
private def published (messages : List CString) : Box × State :=
  (messages.foldl (fun x message => x.bind fun (box, s) =>
    (publish s box 0 message).toOption.map Prod.snd) opened).getD
    (.zeroed, Broker.fresh.tfs)

/-- A message of `n` bytes. -/
private def letters (n : ℕ) : CString := ⟨List.replicate n 65, by simp⟩

private theorem publisherAt_published {messages : List CString}
    (h : let x := published messages
      (0 < x.2.maxOpenFiles ∧ HandleOn x.2 0 1 ∧ 1 < x.2.inodeTableSize ∧
        (x.2.inodeTable 1).iSize ≤ x.2.blockSize) ∧
      ((x.2.inodeTable 1).iDataBlock = 1 ∧ 1 < x.2.dataBlocks ∨ (x.2.inodeTable 1).iSize = 0) ∧
      x.1.allocState = .USED ∧ tfsLookup x.2 (some x.1.name) rootDirInum = .ret 1 ∧
      (x.2.openFileTable 0).ofOffset = (x.2.inodeTable 1).iSize ∧ x.1.size < sizeRange) :
    PublisherAt (published messages).2 (published messages).1 0 1 := by
  obtain ⟨⟨hvalid, hon, hinode, hsize⟩, hblock, hused, hnames, hend, hbox⟩ := h
  refine ⟨⟨⟨hinode, hsize, fun hpos => ⟨1, ?_⟩⟩, hvalid, hon⟩, hused, hnames, hend, hbox⟩
  exact hblock.resolve_right hpos.ne'

/-- The first message of a box is published whole. -/
theorem publish_all_or_nothing_first :
    AllOrNothing (published []).2 (published []).1 0 1 (letters 2) := by
  have h : PublisherAt (published []).2 (published []).1 0 1 :=
    publisherAt_published (by decide +kernel)
  have hmessage : (letters 2).strlen < messageLength := by decide
  exact (publish_all_or_nothing h hmessage).mpr ⟨by decide +kernel, .inl (by decide +kernel)⟩

/-- After a message of 1022 bytes, one byte is written without a terminator and taken
for a whole message. -/
theorem publish_splits : ¬ ∀ s box fh k message, PublisherAt s box fh k →
    message.strlen < messageLength → AllOrNothing s box fh k message := by
  intro hall
  have h : PublisherAt (published [letters 1022]).2 (published [letters 1022]).1 0 1 :=
    publisherAt_published (by decide +kernel)
  have hmessage : (letters 1).strlen < messageLength := by decide
  obtain ⟨ret, box', s', hpublish, -, hsize⟩ := hall _ _ _ _ (letters 1) h hmessage
  have hrun : (publish (published [letters 1022]).2 (published [letters 1022]).1 (0 : ℕ)
      (letters 1)).toOption.map (fun x => (x.2.1.size, (x.2.2.inodeTable 1).iSize)) =
        some (1025, 1024) := by decide +kernel
  rw [hpublish] at hrun
  simp only [Outcome.toOption, Option.map_some, Option.some.injEq, Prod.mk.injEq] at hrun
  rw [length_fileContents, hrun.1, hrun.2] at hsize
  omega

end TfsBroker.Mbroker

/- GID: DragonsNet/Dataplane/StaticDrive
   source: migration/dataplane/host/src/uring.rs
   digest: The cursor of a static send, from the plan's segments to the pipe and the socket. -/

import DragonsNet.Dataplane.StaticPlans

set_option autoImplicit false

namespace DragonsNet.Dataplane.StaticDrive

open Dataplane.StaticPlans (Octets StaticSeg)

/-- A static send: its number, its file, the plan it was made from and the segments it sends, those
from the current one on, the cursor, the file's own position, and, as a record of the run, what was
written to its connection. -/
structure StaticSend where
  number : ℕ
  file : Octets
  plan : List StaticSeg
  segs : List StaticSeg
  todo : List StaticSeg
  segStarted : Bool
  bufSent : ℕ
  winOff : ℕ
  winRemaining : ℕ
  pipeBytes : ℕ
  pos : ℕ
  wire : Octets

/-- The send `dispatch_static` makes. -/
def StaticSend.new (number : ℕ) (file : Octets) (plan segs : List StaticSeg) : StaticSend :=
  ⟨number, file, plan, segs, segs, false, 0, 0, 0, 0, 0, []⟩

inductive Op where
  | send (data : Octets)
  | spliceIn (off chunk : ℕ)
  | spliceOut (n : ℕ)

def SPLICE_CHUNK : ℕ := 2 ^ 20

def startSeg (ss : StaticSend) (seg : StaticSeg) : StaticSend :=
  if ss.segStarted then ss
  else
    match seg with
    | .buf _ => { ss with bufSent := 0, segStarted := true }
    | .window off n =>
      { ss with winOff := off, winRemaining := n, pipeBytes := 0, segStarted := true }

/-- The loop of `drive_static` over the segments left: the operation it submits, or none where it
finishes. A send takes its length from a cast to 32 bits. -/
def driveFrom : List StaticSeg → StaticSend → StaticSend × Option Op
  | [], ss => ({ ss with todo := [] }, none)
  | .buf b :: rest, ss =>
    let ss := startSeg ss (.buf b)
    if ss.bufSent < b.length then
      ({ ss with todo := .buf b :: rest },
        some (.send ((b.drop ss.bufSent).take ((b.length - ss.bufSent) % 2 ^ 32))))
    else driveFrom rest { ss with segStarted := false }
  | .window off n :: rest, ss =>
    let ss := startSeg ss (.window off n)
    if 0 < ss.pipeBytes then
      ({ ss with todo := .window off n :: rest }, some (.spliceOut ss.pipeBytes))
    else if 0 < ss.winRemaining then
      ({ ss with todo := .window off n :: rest },
        some (.spliceIn ss.winOff (min ss.winRemaining SPLICE_CHUNK)))
    else driveFrom rest { ss with segStarted := false }

def driveStatic (ss : StaticSend) : StaticSend × Option Op := driveFrom ss.todo ss

/-- `on_static_send`, `on_splice_in` and `on_splice_out`, up to their `drive_static`. -/
def advance (ss : StaticSend) : Op → ℕ → StaticSend
  | .send _, k => { ss with bufSent := ss.bufSent + k }
  | .spliceIn _ _, k => { ss with
      pipeBytes := (ss.pipeBytes + k) % 2 ^ 32
      winOff := (ss.winOff + k) % 2 ^ 64
      winRemaining := ss.winRemaining - k }
  | .spliceOut _, k => { ss with pipeBytes := ss.pipeBytes - k }

/-- Where the kernel reads for a splice from the file: its offset, `off as i64`, is refused where
it is negative, but -1 stands for the file's own position. -/
def spliceFrom (off pos : ℕ) : Option ℕ :=
  if off < 2 ^ 63 then some off else if off = 2 ^ 64 - 1 then some pos else none

/-- The file's own position after such a read of `k` octets. -/
def movedPos (off pos k : ℕ) : ℕ := if off < 2 ^ 63 then pos else pos + k

/-! ## What a plan is to put on the wire -/

/-- The octets of a segment, a window's read from the file: none past its end. -/
def plannedSeg (file : Octets) : StaticSeg → List (Option UInt8)
  | .buf b => b.map some
  | .window off n => (List.range n).map fun i => file[off + i]?

/-- The concatenation of the segments. -/
def planned (file : Octets) (segs : List StaticSeg) : List (Option UInt8) :=
  segs.flatMap (plannedSeg file)

variable {file : Octets}

theorem planned_cons (file : Octets) (seg : StaticSeg) (segs : List StaticSeg) :
    planned file (seg :: segs) = plannedSeg file seg ++ planned file segs := rfl

theorem plannedSeg_window {off k n : ℕ} (hk : k ≤ n) (hfile : off + k ≤ file.length) :
    plannedSeg file (.window off n) =
      ((file.drop off).take k).map some ++ plannedSeg file (.window (off + k) (n - k)) := by
  obtain ⟨m, rfl⟩ := Nat.exists_eq_add_of_le hk
  rw [Nat.add_sub_cancel_left, plannedSeg, plannedSeg, List.range_add, List.map_append,
    List.map_map]
  congr 1
  · apply List.ext_getElem
    · simp only [List.length_map, List.length_range, List.length_take, List.length_drop]
      omega
    · intro i hi _
      simp only [List.length_map, List.length_range] at hi
      simp only [List.getElem_map, List.getElem_range, List.getElem_take, List.getElem_drop]
      exact List.getElem?_eq_getElem (by omega)
  · apply List.map_congr_left
    intro i _
    simp only [Function.comp_apply, Nat.add_assoc]

/-- The window has octets past the file's end. -/
def Passes (file : Octets) : StaticSeg → Prop
  | .buf _ => False
  | .window off n => 0 < n ∧ file.length < off + n

theorem none_mem_plannedSeg {seg : StaticSeg} : none ∈ plannedSeg file seg ↔ Passes file seg := by
  cases seg with
  | buf b => simp only [plannedSeg, Passes, List.mem_map, reduceCtorEq, and_false, exists_false]
  | window off n =>
    simp only [plannedSeg, Passes, List.mem_map, List.mem_range, List.getElem?_eq_none_iff]
    constructor
    · rintro ⟨i, hi, hle⟩
      omega
    · rintro ⟨hpos, hlt⟩
      exact ⟨n - 1, by omega, by omega⟩

theorem none_mem_planned {segs : List StaticSeg} :
    none ∈ planned file segs ↔ ∃ seg ∈ segs, Passes file seg := by
  simp only [planned, List.mem_flatMap, none_mem_plannedSeg]

/-- The send comes to a window that starts at `2 ^ 64 - 1`, the offset that stands for the file's
position: what comes before it is sent, and the file has octets. -/
def astray (file : Octets) : List StaticSeg → Bool
  | [] => false
  | .buf b :: rest => decide (b.length < 2 ^ 32) && astray file rest
  | .window off n :: rest =>
    if n = 0 then astray file rest
    else if off = 2 ^ 64 - 1 then !file.isEmpty
    else decide (off + n ≤ file.length) && astray file rest

/-- Some literal is too long for a send's length. -/
def oversized (segs : List StaticSeg) : Bool :=
  segs.any fun
    | .buf b => decide (2 ^ 32 ≤ b.length)
    | .window _ _ => false

/-! ## The cursor -/

/-- The segments a cursor still has to put in the pipe or on the wire, the current one from
where it is. -/
def remains (ss : StaticSend) : List StaticSeg :=
  match ss.segStarted, ss.todo with
  | true, .buf b :: rest => .buf (b.drop ss.bufSent) :: rest
  | true, .window _ _ :: rest => .window ss.winOff ss.winRemaining :: rest
  | _, todo => todo

def inWindow (ss : StaticSend) : Bool :=
  match ss.segStarted, ss.todo with
  | true, .window _ _ :: _ => true
  | _, _ => false

/-- The plan is what is on the wire, then what the send has in the pipe, then what remains; and what
is to come of the segments is as it was. -/
structure Cursor (pipe : Octets) (ss : StaticSend) : Prop where
  split : planned ss.file ss.plan = (ss.wire ++ pipe).map some ++ planned ss.file (remains ss)
  count : pipe.length = ss.pipeBytes
  quiet : inWindow ss = false → ss.pipeBytes = 0
  astray : astray ss.file (remains ss) = astray ss.file ss.segs
  oversized : oversized (remains ss) = oversized ss.segs
  fresh : ss.pos = 0

def Asks (ss : StaticSend) : Op → Prop
  | .send data => ∃ b rest, ss.segStarted = true ∧ ss.todo = .buf b :: rest ∧
      ss.bufSent < b.length ∧ data = (b.drop ss.bufSent).take ((b.length - ss.bufSent) % 2 ^ 32)
  | .spliceIn off chunk => inWindow ss = true ∧ ss.pipeBytes = 0 ∧ 0 < ss.winRemaining ∧
      off = ss.winOff ∧ chunk = min ss.winRemaining SPLICE_CHUNK
  | .spliceOut n => inWindow ss = true ∧ n = ss.pipeBytes ∧ 0 < n

variable {pipe : Octets} {ss : StaticSend} {rest : List StaticSeg}

theorem Cursor.written (h : Cursor pipe ss) : ss.wire.map some <+: planned ss.file ss.plan := by
  refine ⟨pipe.map some ++ planned ss.file (remains ss), ?_⟩
  rw [h.split, List.map_append, List.append_assoc]

theorem Cursor.pipe_nil (h : Cursor pipe ss) (hbytes : ss.pipeBytes = 0) : pipe = [] :=
  List.eq_nil_of_length_eq_zero (h.count.trans hbytes)

theorem remains_buf {b : Octets} (hs : ss.segStarted = true) (htodo : ss.todo = .buf b :: rest) :
    remains ss = .buf (b.drop ss.bufSent) :: rest := by
  simp only [remains, hs, htodo]

theorem remains_window (hin : inWindow ss = true) :
    ∃ off n rest, ss.segStarted = true ∧ ss.todo = .window off n :: rest ∧
      remains ss = .window ss.winOff ss.winRemaining :: rest := by
  unfold inWindow at hin
  split at hin
  · rename_i off n rest hs htodo
    exact ⟨off, n, rest, hs, htodo, by simp only [remains, hs, htodo]⟩
  · cases hin

/-- A cursor with as much to come, in the same place of the pipe and of the wire. -/
theorem Cursor.move {tt : StaticSend} (h : Cursor pipe ss) (hfile : tt.file = ss.file)
    (hplan : tt.plan = ss.plan) (hsegs : tt.segs = ss.segs) (hwire : tt.wire = ss.wire)
    (hbytes : tt.pipeBytes = ss.pipeBytes) (hpos : tt.pos = ss.pos)
    (hquiet : inWindow tt = false → ss.pipeBytes = 0)
    (hplanned : planned ss.file (remains tt) = planned ss.file (remains ss))
    (hastray : StaticDrive.astray ss.file (remains tt) = StaticDrive.astray ss.file (remains ss))
    (hoversized : StaticDrive.oversized (remains tt) = StaticDrive.oversized (remains ss)) :
    Cursor pipe tt where
  split := by rw [hfile, hplan, hwire, hplanned]; exact h.split
  count := by rw [hbytes]; exact h.count
  quiet := by rw [hbytes]; exact hquiet
  astray := by rw [hfile, hsegs, hastray]; exact h.astray
  oversized := by rw [hsegs, hoversized]; exact h.oversized
  fresh := hpos.trans h.fresh

private theorem startSeg_spec {seg : StaticSeg} (h : Cursor pipe { ss with todo := seg :: rest }) :
    (startSeg ss seg).number = ss.number ∧ (startSeg ss seg).segStarted = true ∧
      Cursor pipe { startSeg ss seg with todo := seg :: rest } := by
  unfold startSeg
  cases hs : ss.segStarted with
  | true => exact ⟨rfl, hs, h⟩
  | false =>
    have hbytes : ss.pipeBytes = 0 := h.quiet (by simp only [inWindow, hs])
    cases seg with
    | buf b =>
      refine ⟨rfl, rfl, h.move rfl rfl rfl rfl rfl rfl (fun _ => hbytes) ?_ ?_ ?_⟩ <;>
        simp [remains, hs]
    | window off n =>
      refine ⟨rfl, rfl, h.move rfl rfl rfl rfl hbytes.symm rfl (fun _ => hbytes) ?_ ?_ ?_⟩ <;>
        simp [remains, hs]

/-- Outcome of `drive_static`: the operation is what the cursor asks for, or nothing remains. -/
def Driven (pipe : Octets) (number : ℕ) (r : StaticSend × Option Op) : Prop :=
  r.1.number = number ∧ Cursor pipe r.1 ∧
    match r.2 with
    | some op => Asks r.1 op
    | none => remains r.1 = [] ∧ pipe = []

private theorem driveFrom_driven (todo : List StaticSeg) : ∀ ss : StaticSend,
    Cursor pipe { ss with todo := todo } → Driven pipe ss.number (driveFrom todo ss) := by
  induction todo with
  | nil =>
    intro ss h
    refine ⟨rfl, h, ?_, h.pipe_nil (h.quiet ?_)⟩
    · cases hs : ss.segStarted <;> simp only [driveFrom, remains, hs]
    · cases ss.segStarted <;> simp only [inWindow]
  | cons seg rest ih =>
    intro ss h
    obtain ⟨hnumber, hs, hcursor⟩ := startSeg_spec h
    rw [← hnumber]
    cases seg with
    | buf b =>
      simp only [driveFrom]
      split_ifs with hmore
      · exact ⟨rfl, hcursor, b, rest, hs, rfl, hmore, rfl⟩
      · -- the literal is sent, so nothing of it remains
        have hdrop : b.drop (startSeg ss (.buf b)).bufSent = [] :=
          List.drop_eq_nil_of_le (Nat.le_of_not_lt hmore)
        have hzero : (startSeg ss (.buf b)).pipeBytes = 0 :=
          hcursor.quiet (by simp only [inWindow, hs])
        refine ih { startSeg ss (.buf b) with segStarted := false }
          (hcursor.move rfl rfl rfl rfl rfl rfl (fun _ => hzero) ?_ ?_ ?_)
        · simp [remains, hs, hdrop, planned_cons, plannedSeg]
        · simp [remains, hs, hdrop, astray]
        · simp [remains, hs, hdrop, oversized]
    | window off n =>
      have hin : inWindow { startSeg ss (.window off n) with
          todo := .window off n :: rest } = true := by
        simp only [inWindow, hs]
      simp only [driveFrom]
      split_ifs with hfull hmore
      · exact ⟨rfl, hcursor, hin, rfl, hfull⟩
      · exact ⟨rfl, hcursor, hin, Nat.eq_zero_of_not_pos hfull, hmore, rfl, rfl⟩
      · have hzero := Nat.eq_zero_of_not_pos hmore
        refine ih { startSeg ss (.window off n) with segStarted := false }
          (hcursor.move rfl rfl rfl rfl rfl rfl (fun _ => Nat.eq_zero_of_not_pos hfull) ?_ ?_ ?_)
        · simp [remains, hs, hzero, planned_cons, plannedSeg]
        · simp [remains, hs, hzero, astray]
        · simp [remains, hs, oversized]

theorem driveStatic_driven (h : Cursor pipe ss) : Driven pipe ss.number (driveStatic ss) :=
  driveFrom_driven ss.todo ss h

private theorem driveFrom_kept (todo : List StaticSeg) (ss : StaticSend) :
    (driveFrom todo ss).1.file = ss.file ∧ (driveFrom todo ss).1.segs = ss.segs ∧
      (driveFrom todo ss).1.plan = ss.plan ∧ (driveFrom todo ss).1.wire = ss.wire := by
  have hstart : ∀ (ss : StaticSend) (seg : StaticSeg), (startSeg ss seg).file = ss.file ∧
      (startSeg ss seg).segs = ss.segs ∧ (startSeg ss seg).plan = ss.plan ∧
      (startSeg ss seg).wire = ss.wire := by
    intro ss seg
    unfold startSeg
    split_ifs
    · exact ⟨rfl, rfl, rfl, rfl⟩
    · cases seg <;> exact ⟨rfl, rfl, rfl, rfl⟩
  induction todo generalizing ss with
  | nil => exact ⟨rfl, rfl, rfl, rfl⟩
  | cons seg rest ih =>
    cases seg with
    | buf b =>
      simp only [driveFrom]
      split_ifs
      · exact hstart ss (.buf b)
      · obtain ⟨hfile, hsegs, hplan, hwire⟩ := ih { startSeg ss (.buf b) with segStarted := false }
        rw [hfile, hsegs, hplan, hwire]
        exact hstart ss (.buf b)
    | window off n =>
      simp only [driveFrom]
      split_ifs
      · exact hstart ss (.window off n)
      · exact hstart ss (.window off n)
      · obtain ⟨hfile, hsegs, hplan, hwire⟩ :=
          ih { startSeg ss (.window off n) with segStarted := false }
        rw [hfile, hsegs, hplan, hwire]
        exact hstart ss (.window off n)

theorem driveStatic_kept (ss : StaticSend) :
    (driveStatic ss).1.file = ss.file ∧ (driveStatic ss).1.segs = ss.segs ∧
      (driveStatic ss).1.plan = ss.plan ∧ (driveStatic ss).1.wire = ss.wire :=
  driveFrom_kept ss.todo ss

theorem new_cursor {number : ℕ} {file : Octets} {plan segs : List StaticSeg}
    (h : planned file segs = planned file plan) : Cursor [] (.new number file plan segs) where
  split := h.symm
  count := rfl
  quiet _ := rfl
  astray := rfl
  oversized := rfl
  fresh := rfl

/-! ## What an operation moves -/

private theorem astray_send {b : Octets} {k : ℕ} (hk : k ≤ b.length % 2 ^ 32)
    (rest : List StaticSeg) :
    astray file (.buf (b.drop k) :: rest) = astray file (.buf b :: rest) := by
  have hsame : (b.drop k).length < 2 ^ 32 ↔ b.length < 2 ^ 32 := by
    rw [List.length_drop]
    omega
  simp only [astray, hsame]

private theorem oversized_send {b : Octets} {k : ℕ} (hk : k ≤ b.length % 2 ^ 32)
    (rest : List StaticSeg) :
    oversized (.buf (b.drop k) :: rest) = oversized (.buf b :: rest) := by
  have hsame : 2 ^ 32 ≤ (b.drop k).length ↔ 2 ^ 32 ≤ b.length := by
    rw [List.length_drop]
    omega
  simp only [oversized, List.any_cons, hsame]

private theorem astray_read {off k n : ℕ} (hoff : off < 2 ^ 63) (hpos : 0 < k) (hk : k ≤ n)
    (hchunk : k ≤ SPLICE_CHUNK) (hfile : off + k ≤ file.length) (rest : List StaticSeg) :
    astray file (.window (off + k) (n - k) :: rest) = astray file (.window off n :: rest) := by
  have hchunk' : k ≤ 2 ^ 20 := hchunk
  rw [astray, astray, if_neg (show ¬ n = 0 by omega), if_neg (show ¬ off = 2 ^ 64 - 1 by omega),
    if_neg (show ¬ off + k = 2 ^ 64 - 1 by omega)]
  by_cases hall : n - k = 0
  · have hfits : off + n ≤ file.length := by omega
    rw [if_pos hall, decide_eq_true hfits, Bool.true_and]
  · have hsum : off + k + (n - k) = off + n := by omega
    rw [if_neg hall, hsum]

theorem send_cursor {data : Octets} {k : ℕ} (h : Cursor pipe ss) (hasks : Asks ss (.send data))
    (hk : k ≤ data.length) :
    Cursor pipe (advance { ss with wire := ss.wire ++ data.take k } (.send data) k) := by
  obtain ⟨b, rest, hs, htodo, hmore, rfl⟩ := hasks
  have hremains := remains_buf hs htodo
  have hzero : ss.pipeBytes = 0 := h.quiet (by simp only [inWindow, hs, htodo])
  have hpipe := h.pipe_nil hzero
  rw [List.length_take, List.length_drop] at hk
  have hk' : k ≤ (b.drop ss.bufSent).length % 2 ^ 32 := by
    rw [List.length_drop]
    omega
  have htake : ((b.drop ss.bufSent).take ((b.length - ss.bufSent) % 2 ^ 32)).take k =
      (b.drop ss.bufSent).take k := by
    rw [List.take_take, Nat.min_eq_left (by omega)]
  have hnext : ∀ wire, remains (advance { ss with wire := wire } (.send
      ((b.drop ss.bufSent).take ((b.length - ss.bufSent) % 2 ^ 32))) k) =
      .buf ((b.drop ss.bufSent).drop k) :: rest := by
    intro wire
    rw [List.drop_drop]
    exact @remains_buf (advance { ss with wire := wire } (.send _) k) rest b hs htodo
  refine ⟨?_, h.count, fun _ => hzero, ?_, ?_, h.fresh⟩
  · have hsplit := h.split
    rw [hremains, hpipe, List.append_nil, planned_cons, plannedSeg] at hsplit
    have hcut : (b.drop ss.bufSent).map some = ((b.drop ss.bufSent).take k).map some ++
        ((b.drop ss.bufSent).drop k).map some := by
      rw [← List.map_append, List.take_append_drop]
    rw [hnext, htake, hpipe, List.append_nil, planned_cons, plannedSeg]
    simpa only [advance, List.map_append, List.append_assoc, hcut] using hsplit
  · have hsame := h.astray
    rw [hremains, ← astray_send hk'] at hsame
    rw [hnext]
    exact hsame
  · have hsame := h.oversized
    rw [hremains, ← oversized_send hk'] at hsame
    rw [hnext]
    exact hsame

theorem spliceIn_cursor {off chunk k : ℕ} (h : Cursor pipe ss)
    (hasks : Asks ss (.spliceIn off chunk)) (hoff : off < 2 ^ 63) (hpos : 0 < k) (hk : k ≤ chunk)
    (hfile : k ≤ (ss.file.drop off).length) :
    Cursor ((ss.file.drop off).take k) (advance ss (.spliceIn off chunk) k) := by
  obtain ⟨hin, hzero, hmore, rfl, rfl⟩ := hasks
  obtain ⟨o, n, rest, hs, htodo, hremains⟩ := remains_window hin
  have hchunk : k ≤ SPLICE_CHUNK := hk.trans (Nat.min_le_right _ _)
  have hchunk' : k ≤ 2 ^ 20 := hchunk
  have hleft : k ≤ ss.winRemaining := hk.trans (Nat.min_le_left _ _)
  have hmod : (ss.winOff + k) % 2 ^ 64 = ss.winOff + k := Nat.mod_eq_of_lt (by omega)
  have hfile' : ss.winOff + k ≤ ss.file.length := by
    rw [List.length_drop] at hfile
    omega
  have hnext : remains (advance ss (.spliceIn ss.winOff (min ss.winRemaining SPLICE_CHUNK)) k) =
      .window (ss.winOff + k) (ss.winRemaining - k) :: rest := by
    simp only [remains, advance, hs, htodo, hmod]
  have hpipe := h.pipe_nil hzero
  refine ⟨?_, ?_, fun hout => ?_, ?_, ?_, h.fresh⟩
  · have hsplit := h.split
    rw [hremains, hpipe, List.append_nil, planned_cons, plannedSeg_window hleft hfile'] at hsplit
    rw [hnext, planned_cons]
    simpa only [advance, List.map_append, List.append_assoc] using hsplit
  · simp only [advance]
    rw [List.length_take, Nat.min_eq_left hfile, hzero, Nat.zero_add, Nat.mod_eq_of_lt (by omega)]
  · simp only [inWindow, advance, hs, htodo, Bool.true_eq_false] at hout
  · have hsame := h.astray
    rw [hremains, ← astray_read hoff hpos hleft hchunk hfile'] at hsame
    rw [hnext]
    exact hsame
  · have hsame := h.oversized
    rw [hremains] at hsame
    rw [hnext]
    exact hsame

theorem spliceOut_cursor {n k : ℕ} (h : Cursor pipe ss) (hasks : Asks ss (.spliceOut n)) :
    Cursor (pipe.drop k)
      (advance { ss with wire := ss.wire ++ pipe.take k } (.spliceOut n) k) := by
  obtain ⟨hin, -, -⟩ := hasks
  obtain ⟨o, m, rest, hs, htodo, hremains⟩ := remains_window hin
  have hnext : remains (advance { ss with wire := ss.wire ++ pipe.take k } (.spliceOut n) k) =
      remains ss := by
    simp only [remains, advance, hs, htodo]
  refine ⟨?_, ?_, fun hout => ?_, ?_, ?_, h.fresh⟩
  · rw [hnext]
    simp only [advance, List.append_assoc, List.take_append_drop]
    exact h.split
  · simp only [advance]
    rw [List.length_drop, h.count]
  · simp only [inWindow, advance, hs, htodo, Bool.true_eq_false] at hout
  · rw [hnext]
    exact h.astray
  · rw [hnext]
    exact h.oversized

theorem spliceFrom_of_ne {off pos p : ℕ} (hlast : off ≠ 2 ^ 64 - 1)
    (h : spliceFrom off pos = some p) : off < 2 ^ 63 ∧ p = off := by
  unfold spliceFrom at h
  split_ifs at h with hoff
  exact ⟨hoff, (Option.some.inj h).symm⟩

end DragonsNet.Dataplane.StaticDrive

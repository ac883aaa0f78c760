/- GID: DragonsNet/Dataplane/StaticLane
   source: migration/dataplane/host/src/uring.rs
   digest: Static sends of one shard, which move file windows through one shared pipe. -/

import DragonsNet.Dataplane.StaticDrive
import DragonsNet.Lib.Runs
import Mathlib.Data.List.Basic

set_option autoImplicit false

namespace DragonsNet.Dataplane.StaticLane

open Lib.Runs (run Meets invariant_of_meets)
open Dataplane.StaticPlans (Octets StaticSeg)
open Dataplane.StaticDrive

/-- Whether the shard has its pipe, and whether zero-copy is left on. -/
structure Cfg where
  hasPipe : Bool
  zeroCopy : Bool

def Cfg.useSplice (cfg : Cfg) : Bool := cfg.hasPipe && cfg.zeroCopy

/-- The userspace-copy fallback: every window is read into a literal segment. -/
def materialise (file : Octets) : List StaticSeg → Option (List StaticSeg)
  | [] => some []
  | .buf b :: rest => (materialise file rest).map (.buf b :: ·)
  | .window off n :: rest =>
    if ((file.drop off).take n).length = n then
      (materialise file rest).map (.buf ((file.drop off).take n) :: ·)
    else none

/-- The one operation of a send: with the kernel, or done with a result. -/
inductive Flight where
  | submitted (op : Op)
  | done (op : Op) (res : ℤ)

/-- The static lane of a shard. An octet in the pipe carries the number of the send that put
it there. `draining` is a send that is being closed, with what `drain_pipe` still has to read.
The last three fields are a record: sends finished and closed, and who drained whose octets. -/
structure Shard (n : ℕ) where
  slots : Fin n → Option (StaticSend × Flight)
  pipe : List (ℕ × UInt8)
  draining : Option (StaticSend × ℕ)
  next : ℕ
  finished : List StaticSend
  closed : List StaticSend
  drained : List (ℕ × ℕ)

def start (n : ℕ) : Shard n := ⟨fun _ => none, [], none, 0, [], [], []⟩

variable {n : ℕ}

def Shard.setSlot (s : Shard n) (i : Fin n) (v : Option (StaticSend × Flight)) : Shard n :=
  { s with slots := Function.update s.slots i v }

def submit (s : Shard n) (i : Fin n) (r : StaticSend × Option Op) : Shard n :=
  match r.2 with
  | some op => s.setSlot i (some (r.1, .submitted op))
  | none => { s.setSlot i none with finished := r.1 :: s.finished }

def dispatchStatic (cfg : Cfg) (s : Shard n) (i : Fin n) (file : Octets) (plan : List StaticSeg) :
    Option (Shard n) :=
  match s.draining, s.slots i with
  | none, none =>
    match if cfg.useSplice then some plan else materialise file plan with
    | none => some s
    | some segs => some (submit { s with next := s.next + 1 } i
        (driveStatic (.new s.next file plan segs)))
  | _, _ => none

/-- The kernel performs an operation, on `k` octets, of the at most `2 ^ 31 - 1` it can report. -/
def perform (s : Shard n) (i : Fin n) (k : ℕ) : Option (Shard n) :=
  if k = 0 ∨ 2 ^ 31 ≤ k then none
  else
    match s.slots i with
    | some (ss, .submitted (.send data)) =>
      if k ≤ data.length then
        some (s.setSlot i (some ({ ss with wire := ss.wire ++ data.take k }, .done (.send data) k)))
      else none
    | some (ss, .submitted (.spliceIn off chunk)) =>
      match spliceFrom off ss.pos with
      | none => none
      | some p =>
        if k ≤ chunk ∧ k ≤ (ss.file.drop p).length then
          let ss := { ss with pos := movedPos off ss.pos k }
          some { s.setSlot i (some (ss, .done (.spliceIn off chunk) k)) with
            pipe := s.pipe ++ ((ss.file.drop p).take k).map (ss.number, ·) }
        else none
    | some (ss, .submitted (.spliceOut m)) =>
      if k ≤ m ∧ k ≤ s.pipe.length then
        some { s.setSlot i (some
            ({ ss with wire := ss.wire ++ (s.pipe.take k).map Prod.snd }, .done (.spliceOut m) k)) with
          pipe := s.pipe.drop k }
      else none
    | _ => none

def fail (s : Shard n) (i : Fin n) (res : ℤ) : Option (Shard n) :=
  match s.slots i with
  | some (ss, .submitted op) =>
    if res ≤ 0 then some (s.setSlot i (some (ss, .done op res))) else none
  | _ => none

def closeStatic (cfg : Cfg) (s : Shard n) (i : Fin n) (ss : StaticSend) : Shard n :=
  if 0 < ss.pipeBytes ∧ cfg.hasPipe = true then
    { s.setSlot i none with draining := some (ss, ss.pipeBytes) }
  else { s.setSlot i none with closed := ss :: s.closed }

def complete (cfg : Cfg) (s : Shard n) (i : Fin n) : Option (Shard n) :=
  match s.draining, s.slots i with
  | none, some (ss, .done op res) =>
    some (if res ≤ 0 then closeStatic cfg s i ss
      else submit s i (driveStatic (advance ss op res.toNat)))
  | _, _ => none

/-- One read of `drain_pipe`, of `k` octets; it blocks on an empty pipe. -/
def drainRead (s : Shard n) (k : ℕ) : Option (Shard n) :=
  match s.draining with
  | some (ss, r) =>
    if k = 0 ∨ min r 65536 < k ∨ s.pipe.length < k then none
    else
      let t : Shard n := { s with
        pipe := s.pipe.drop k
        drained := (s.pipe.take k).map (fun x : ℕ × UInt8 => (ss.number, x.1)) ++ s.drained }
      some (if r - k = 0 then { t with draining := none, closed := ss :: s.closed }
        else { t with draining := some (ss, r - k) })
  | none => none

def drainFail (s : Shard n) : Option (Shard n) :=
  match s.draining with
  | some (ss, _) => some { s with draining := none, closed := ss :: s.closed }
  | none => none

inductive Action (n : ℕ) where
  | dispatch (i : Fin n) (file : Octets) (plan : List StaticSeg)
  | perform (i : Fin n) (k : ℕ)
  | fail (i : Fin n) (res : ℤ)
  | complete (i : Fin n)
  | drainRead (k : ℕ)
  | drainFail

def step (cfg : Cfg) (s : Shard n) : Action n → Option (Shard n)
  | .dispatch i file plan => dispatchStatic cfg s i file plan
  | .perform i k => perform s i k
  | .fail i res => fail s i res
  | .complete i => complete cfg s i
  | .drainRead k => drainRead s k
  | .drainFail => drainFail s

/-- The kernel fills the pipe for a send only while the pipe holds no other send's octets, and from
an offset that does not stand for its file's own position. -/
def alone (s : Shard n) : Action n → Bool
  | .perform i _ =>
    match s.slots i with
    | some (ss, .submitted (.spliceIn off _)) =>
      off != 2 ^ 64 - 1 && s.pipe.all fun x => x.1 == ss.number
    | _ => true
  | _ => true

/-- What a send has in the pipe. -/
def own (number : ℕ) (pipe : List (ℕ × UInt8)) : Octets :=
  (pipe.filter fun x => x.1 == number).map Prod.snd

/-- A send and its operation: before the operation is performed the cursor is right, and after
it the cursor as its handler will leave it. -/
def Tracks (pipe : List (ℕ × UInt8)) (ss : StaticSend) : Flight → Prop
  | .submitted op => Cursor (own ss.number pipe) ss ∧ Asks ss op
  | .done op res => (0 < res → Cursor (own ss.number pipe) (advance ss op res.toNat)) ∧
      (res ≤ 0 → Cursor (own ss.number pipe) ss)

section Own

variable {m : ℕ} {pipe : List (ℕ × UInt8)}

theorem own_of_all (h : ∀ x ∈ pipe, x.1 = m) : own m pipe = pipe.map Prod.snd := by
  rw [own, List.filter_eq_self.mpr]
  intro x hx
  simp [h x hx]

private theorem own_of_none (h : ∀ x ∈ pipe, x.1 ≠ m) : own m pipe = [] := by
  rw [own, List.filter_eq_nil_iff.mpr]
  · rfl
  · intro x hx
    simp [h x hx]

private theorem own_tagged (l : Octets) : own m (l.map (m, ·)) = l := by
  rw [own_of_all, List.map_map]
  · exact List.map_id' l
  · intro x hx
    obtain ⟨y, -, rfl⟩ := List.mem_map.mp hx
    rfl

private theorem exists_of_own (h : 0 < (own m pipe).length) : ∃ x ∈ pipe, x.1 = m := by
  by_contra hnone
  push Not at hnone
  rw [own_of_none hnone] at h
  exact absurd h (by decide)

end Own

private theorem planned_materialise {file : Octets} {plan segs : List StaticSeg}
    (h : materialise file plan = some segs) :
    planned file segs = planned file plan := by
  induction plan generalizing segs with
  | nil =>
    cases h
    rfl
  | cons seg rest ih =>
    cases seg with
    | buf b =>
      simp only [materialise, Option.map_eq_some_iff] at h
      obtain ⟨rest', hrest, rfl⟩ := h
      rw [planned_cons, planned_cons, ih hrest]
    | window off n =>
      simp only [materialise] at h
      split_ifs at h with hread
      simp only [Option.map_eq_some_iff] at h
      obtain ⟨rest', hrest, rfl⟩ := h
      rw [planned_cons, planned_cons, ih hrest]
      refine congrArg (· ++ planned file rest) ?_
      rcases Nat.eq_zero_or_pos n with rfl | hpos
      · rfl
      · rw [List.length_take, List.length_drop] at hread
        rw [plannedSeg_window le_rfl (by omega), Nat.sub_self]
        exact (List.append_nil _).symm

/-- The octets in the pipe are all of one send, and every send is where its cursor says. -/
structure Inv (s : Shard n) : Prop where
  uniform : ∀ x ∈ s.pipe, ∀ y ∈ s.pipe, x.1 = y.1
  owners : ∀ x ∈ s.pipe, x.1 < s.next
  sends : ∀ i ss f, s.slots i = some (ss, f) → Tracks s.pipe ss f ∧ ss.number < s.next
  apart : ∀ i j ss f tt g, s.slots i = some (ss, f) → s.slots j = some (tt, g) →
    ss.number = tt.number → i = j
  drain : ∀ ss r, s.draining = some (ss, r) → (own ss.number s.pipe).length = r ∧ 0 < r ∧
    ss.wire.map some <+: planned ss.file ss.plan ∧ ss.number < s.next ∧
    ∀ i tt g, s.slots i = some (tt, g) → tt.number ≠ ss.number
  finished : ∀ ss ∈ s.finished, ss.wire.map some = planned ss.file ss.plan
  closed : ∀ ss ∈ s.closed, ss.wire.map some <+: planned ss.file ss.plan
  drained : ∀ d ∈ s.drained, d.1 = d.2

theorem start_inv : Inv (start n) where
  uniform := by simp [start]
  owners := by simp [start]
  sends := by simp [start]
  apart := by simp [start]
  drain := by simp [start]
  finished := by simp [start]
  closed := by simp [start]
  drained := by simp [start]

section Slots

variable {s : Shard n} {i : Fin n} {ss : StaticSend} {pipe : List (ℕ × UInt8)}

theorem advance_wire (ss : StaticSend) (op : Op) (k : ℕ) : (advance ss op k).wire = ss.wire ∧
    (advance ss op k).file = ss.file ∧ (advance ss op k).plan = ss.plan ∧
    (advance ss op k).number = ss.number ∧ (advance ss op k).segs = ss.segs := by
  cases op <;> exact ⟨rfl, rfl, rfl, rfl, rfl⟩

theorem Tracks.written {f : Flight} (h : Tracks pipe ss f) :
    ss.wire.map some <+: planned ss.file ss.plan := by
  cases f with
  | submitted op => exact h.1.written
  | done op res =>
    rcases lt_or_ge 0 res with hpos | hneg
    · obtain ⟨hwire, hfile, hplan, -⟩ := advance_wire ss op res.toNat
      have hwritten := (h.1 hpos).written
      rwa [hwire, hfile, hplan] at hwritten
    · exact (h.2 hneg).written

private theorem Tracks.frame {pipe pipe' : List (ℕ × UInt8)} {f : Flight} (h : Tracks pipe ss f)
    (hown : own ss.number pipe' = own ss.number pipe) : Tracks pipe' ss f := by
  cases f with
  | submitted op | done op res =>
    rw [Tracks, hown]
    exact h

private theorem setSlot_cases {v : Option (StaticSend × Flight)} {w : StaticSend × Flight}
    {j : Fin n} (h : (s.setSlot i v).slots j = some w) :
    j = i ∧ v = some w ∨ j ≠ i ∧ s.slots j = some w := by
  rcases eq_or_ne j i with rfl | hji
  · exact .inl ⟨rfl, by simpa [Shard.setSlot] using h⟩
  · exact .inr ⟨hji, by simpa [Shard.setSlot, hji] using h⟩

private theorem Inv.change {tt : StaticSend} {g : Flight} (h : Inv s)
    (hnew : ∀ j uu e, s.slots j = some (uu, e) → uu.number = tt.number → j = i)
    (hdrain : ∀ uu r, s.draining = some (uu, r) → uu.number ≠ tt.number)
    (htracks : Tracks pipe tt g) (hold : tt.number < s.next)
    (huniform : ∀ x ∈ pipe, ∀ y ∈ pipe, x.1 = y.1) (howners : ∀ x ∈ pipe, x.1 < s.next)
    (hothers : ∀ m, m ≠ tt.number → own m pipe = own m s.pipe) :
    Inv { s.setSlot i (some (tt, g)) with pipe := pipe } := by
  refine ⟨huniform, howners, fun j uu e hj => ?_, fun j l uu e vv e' hj hl heq => ?_,
    fun uu r hr => ?_, h.finished, h.closed, h.drained⟩
  · rcases setSlot_cases hj with ⟨rfl, ⟨⟩⟩ | ⟨hji, hj⟩
    · exact ⟨htracks, hold⟩
    · obtain ⟨htr, hrest⟩ := h.sends j uu e hj
      exact ⟨htr.frame (hothers _ fun heq => hji (hnew j uu e hj heq)), hrest⟩
  · rcases setSlot_cases hj with ⟨rfl, ⟨⟩⟩ | ⟨-, hj'⟩ <;>
      rcases setSlot_cases hl with ⟨rfl, ⟨⟩⟩ | ⟨-, hl'⟩
    · rfl
    · exact (hnew l vv e' hl' heq.symm).symm
    · exact hnew j uu e hj' heq
    · exact h.apart j l uu e vv e' hj' hl' heq
  · obtain ⟨hlen, hpos, hwritten, hlt, hne⟩ := h.drain uu r hr
    refine ⟨by rw [hothers _ (hdrain uu r hr)]; exact hlen, hpos, hwritten, hlt,
      fun j vv e hj => ?_⟩
    rcases setSlot_cases hj with ⟨rfl, ⟨⟩⟩ | ⟨hji, hj⟩
    · exact (hdrain uu r hr).symm
    · exact hne j vv e hj

private theorem Inv.goOn {tt : StaticSend} {f g : Flight} (h : Inv s)
    (hi : s.slots i = some (ss, f)) (hnumber : tt.number = ss.number) (htracks : Tracks pipe tt g)
    (huniform : ∀ x ∈ pipe, ∀ y ∈ pipe, x.1 = y.1) (howners : ∀ x ∈ pipe, x.1 < s.next)
    (hothers : ∀ m, m ≠ ss.number → own m pipe = own m s.pipe) :
    Inv { s.setSlot i (some (tt, g)) with pipe := pipe } := by
  rw [← hnumber] at hothers
  refine h.change (fun j uu e hj heq => ?_) (fun uu r hr heq => ?_) htracks ?_ huniform howners
    hothers
  · exact h.apart j i uu e ss f hj hi (heq.trans hnumber)
  · exact (h.drain uu r hr).2.2.2.2 i ss f hi (heq.trans hnumber).symm
  · rw [hnumber]
    exact (h.sends i ss f hi).2

private theorem Inv.leave (h : Inv s) : Inv (s.setSlot i none) := by
  have hslot : ∀ j v, (s.setSlot i none).slots j = some v → s.slots j = some v := by
    intro j v hj
    rcases setSlot_cases hj with ⟨-, ⟨⟩⟩ | ⟨-, hj⟩
    exact hj
  refine ⟨h.uniform, h.owners, fun j uu e hj => h.sends j uu e (hslot j _ hj),
    fun j l uu e vv e' hj hl => h.apart j l uu e vv e' (hslot j _ hj) (hslot l _ hl),
    fun uu r hr => ?_, h.finished, h.closed, h.drained⟩
  obtain ⟨hlen, hpos, hwritten, hlt, hne⟩ := h.drain uu r hr
  exact ⟨hlen, hpos, hwritten, hlt, fun j vv e hj => hne j vv e (hslot j _ hj)⟩

private theorem Inv.all_own (h : Inv s) {m : ℕ} (hm : 0 < (own m s.pipe).length) :
    ∀ x ∈ s.pipe, x.1 = m := by
  obtain ⟨y, hy, rfl⟩ := exists_of_own hm
  exact fun x hx => h.uniform x hx y hy

end Slots

section Preservation

variable {cfg : Cfg} {s t : Shard n} {i : Fin n} {k : ℕ}

private theorem toNat_of_nat (hk : k ≠ 0) : 0 < (k : ℤ) ∧ ((k : ℤ)).toNat = k := by
  omega

private theorem Inv.submit {r : StaticSend × Option Op} {m : ℕ} (h : Inv s)
    (hr : Driven (own m s.pipe) m r) (hm : m < s.next)
    (hapart : ∀ j tt g, s.slots j = some (tt, g) → tt.number = m → j = i)
    (hdrain : ∀ uu d, s.draining = some (uu, d) → uu.number ≠ m) :
    Inv (Dataplane.StaticLane.submit s i r) := by
  obtain ⟨hnumber, hcursor, hop⟩ := hr
  unfold Dataplane.StaticLane.submit
  split
  · rename_i op hsome
    rw [hsome] at hop
    rw [← hnumber] at hm hapart hdrain hcursor
    exact h.change hapart hdrain ⟨hcursor, hop⟩ hm h.uniform h.owners fun _ _ => rfl
  · rename_i hnone
    rw [hnone] at hop
    have hleft : Inv (s.setSlot i none) := h.leave
    refine ⟨hleft.uniform, hleft.owners, hleft.sends, hleft.apart, hleft.drain, fun uu hu => ?_,
      hleft.closed, hleft.drained⟩
    rcases List.mem_cons.mp hu with rfl | hu
    · have hsplit := hcursor.split
      rw [hop.1, hop.2, List.append_nil] at hsplit
      exact (hsplit.trans (List.append_nil _)).symm
    · exact h.finished uu hu

theorem dispatchStatic_inv {file : Octets} {plan : List StaticSeg} (h : Inv s)
    (hstep : dispatchStatic cfg s i file plan = some t) : Inv t := by
  unfold dispatchStatic at hstep
  split at hstep
  · rename_i hdraining hslot
    split at hstep
    · cases hstep
      exact h
    · rename_i segs hsegs
      cases hstep
      have hplan : planned file segs = planned file plan := by
        split_ifs at hsegs with hsplice
        · rw [← Option.some.inj hsegs]
        · exact planned_materialise hsegs
      have hnil : own s.next s.pipe = [] :=
        own_of_none fun x hx heq => (h.owners x hx).ne heq
      have hgrown : Inv { s with next := s.next + 1 } :=
        ⟨h.uniform, fun x hx => Nat.lt_succ_of_lt (h.owners x hx),
          fun j uu e hj => ⟨(h.sends j uu e hj).1, Nat.lt_succ_of_lt (h.sends j uu e hj).2⟩,
          h.apart, fun uu r hr => absurd (hdraining.symm.trans hr) (by simp), h.finished, h.closed,
          h.drained⟩
      refine hgrown.submit (m := s.next) ?_ (Nat.lt_succ_self _) (fun j tt g hj heq => ?_)
        (fun uu d hd => ?_)
      · rw [hnil]
        exact driveStatic_driven (new_cursor hplan)
      · exact absurd heq (h.sends j tt g hj).2.ne
      · rw [show s.draining = none from hdraining] at hd
        cases hd
  · cases hstep

theorem fail_inv {res : ℤ} (h : Inv s) (hstep : fail s i res = some t) : Inv t := by
  unfold fail at hstep
  split at hstep
  · rename_i ss op hi
    split_ifs at hstep with hres
    cases hstep
    have hcursor := (h.sends i ss _ hi).1.1
    exact h.goOn hi rfl ⟨fun hpos => absurd hres (not_le.mpr hpos), fun _ => hcursor⟩
      h.uniform h.owners fun _ _ => rfl
  · cases hstep

theorem complete_inv (h : Inv s) (hstep : complete cfg s i = some t) : Inv t := by
  unfold complete at hstep
  split at hstep
  · rename_i ss op res hdraining hi
    cases hstep
    obtain ⟨htracks, hlt⟩ := h.sends i ss _ hi
    have hleft : Inv (s.setSlot i none) := h.leave
    split_ifs with hres
    · have hcursor := htracks.2 hres
      unfold closeStatic
      split_ifs with hresidue
      · refine ⟨hleft.uniform, hleft.owners, hleft.sends, hleft.apart, fun uu r hr => ?_,
          hleft.finished, hleft.closed, hleft.drained⟩
        simp only [Option.some.injEq, Prod.mk.injEq] at hr
        obtain ⟨rfl, rfl⟩ := hr
        refine ⟨hcursor.count, hresidue.1, hcursor.written, hlt, fun j tt g hj heq => ?_⟩
        rcases eq_or_ne j i with rfl | hji
        · simp [Shard.setSlot] at hj
        · simp only [Shard.setSlot, Function.update_of_ne hji] at hj
          exact hji (h.apart j i tt g ss _ hj hi heq)
      · refine ⟨hleft.uniform, hleft.owners, hleft.sends, hleft.apart, hleft.drain,
          hleft.finished, fun uu hu => ?_, hleft.drained⟩
        rcases List.mem_cons.mp hu with rfl | hu
        · exact hcursor.written
        · exact h.closed uu hu
    · have hdriven := driveStatic_driven (htracks.1 (not_le.mp hres))
      rw [(advance_wire ss op res.toNat).2.2.2.1] at hdriven
      refine h.submit hdriven hlt (fun j tt g hj heq => h.apart j i tt g ss _ hj hi heq)
        fun uu d hd => ?_
      rw [hdraining] at hd
      cases hd
  · cases hstep

private theorem tracks_done {ss : StaticSend} {pipe : List (ℕ × UInt8)} {op : Op} (hk : k ≠ 0)
    (h : Cursor (own ss.number pipe) (advance ss op k)) : Tracks pipe ss (.done op k) := by
  obtain ⟨hpos, htoNat⟩ := toNat_of_nat hk
  refine ⟨fun _ => ?_, fun hneg => absurd hpos (not_lt.mpr hneg)⟩
  rw [htoNat]
  exact h

theorem perform_inv (h : Inv s) (halone : alone s (.perform i k) = true)
    (hstep : perform s i k = some t) : Inv t := by
  unfold perform at hstep
  split_ifs at hstep with hbad
  push Not at hbad
  split at hstep
  · rename_i ss data hi
    split_ifs at hstep with hle
    cases hstep
    obtain ⟨⟨hcursor, hasks⟩, -⟩ := h.sends i ss _ hi
    exact h.goOn hi rfl (tracks_done hbad.1 (send_cursor hcursor hasks hle)) h.uniform
      h.owners fun _ _ => rfl
  · rename_i ss off chunk hi
    split at hstep
    · cases hstep
    rename_i p hfrom
    split_ifs at hstep with hle
    cases hstep
    obtain ⟨⟨hcursor, hasks⟩, hlt⟩ := h.sends i ss _ hi
    have hpos : 0 < k := Nat.pos_of_ne_zero hbad.1
    have hok : off ≠ 2 ^ 64 - 1 ∧ ∀ x ∈ s.pipe, x.1 = ss.number := by
      simpa [alone, hi] using halone
    obtain ⟨hlast, hall⟩ := hok
    obtain ⟨hoff, rfl⟩ := spliceFrom_of_ne hlast hfrom
    have hpipe : s.pipe = [] := by
      have hnil := hcursor.pipe_nil hasks.2.1
      rw [own_of_all hall, List.map_eq_nil_iff] at hnil
      exact hnil
    have hmine : ∀ x ∈ ((ss.file.drop p).take k).map (ss.number, ·), x.1 = ss.number := by
      intro x hx
      obtain ⟨y, -, rfl⟩ := List.mem_map.mp hx
      rfl
    rw [hpipe, List.nil_append, movedPos, if_pos hoff]
    refine h.goOn hi rfl (tracks_done hbad.1 ?_)
      (fun x hx y hy => (hmine x hx).trans (hmine y hy).symm)
      (fun x hx => by rw [hmine x hx]; exact hlt) fun m hm => ?_
    · rw [own_tagged]
      exact spliceIn_cursor hcursor hasks hoff hpos hle.1 hle.2
    · rw [own_of_none fun x hx heq => hm (heq.symm.trans (hmine x hx)), hpipe]
      rfl
  · rename_i ss m hi
    split_ifs at hstep with hle
    cases hstep
    obtain ⟨⟨hcursor, hasks⟩, hlt⟩ := h.sends i ss _ hi
    have hall : ∀ x ∈ s.pipe, x.1 = ss.number := by
      refine h.all_own ?_
      rw [hcursor.count, ← hasks.2.1]
      exact hasks.2.2
    have hrest : ∀ x ∈ s.pipe.drop k, x ∈ s.pipe := fun x hx => List.mem_of_mem_drop hx
    refine h.goOn hi rfl (tracks_done hbad.1 ?_)
      (fun x hx y hy => h.uniform x (hrest x hx) y (hrest y hy))
      (fun x hx => h.owners x (hrest x hx)) fun m hm => ?_
    · rw [own_of_all hall] at hcursor
      rw [own_of_all fun x hx => hall x (hrest x hx), List.map_drop, List.map_take]
      exact spliceOut_cursor hcursor hasks
    · rw [own_of_none fun x hx heq => hm (heq.symm.trans (hall x (hrest x hx))),
        own_of_none fun x hx heq => hm (heq.symm.trans (hall x hx))]
  · cases hstep

private theorem Inv.drains {ss : StaticSend} {r k : ℕ} {d : Option (StaticSend × ℕ)} (h : Inv s)
    (hr : s.draining = some (ss, r))
    (hd : ∀ uu r', d = some (uu, r') → uu = ss ∧ r' = r - k ∧ 0 < r - k) :
    Inv { s with
      pipe := s.pipe.drop k
      drained := (s.pipe.take k).map (fun x : ℕ × UInt8 => (ss.number, x.1)) ++ s.drained
      draining := d } := by
  obtain ⟨hlen, hpos, hwritten, hlt, hne⟩ := h.drain ss r hr
  have hall : ∀ x ∈ s.pipe, x.1 = ss.number := h.all_own (by rw [hlen]; exact hpos)
  have hrest : ∀ x ∈ s.pipe.drop k, x ∈ s.pipe := fun x hx => List.mem_of_mem_drop hx
  have hothers : ∀ m, m ≠ ss.number → own m (s.pipe.drop k) = own m s.pipe := by
    intro m hm
    rw [own_of_none fun x hx heq => hm (heq.symm.trans (hall x (hrest x hx))),
      own_of_none fun x hx heq => hm (heq.symm.trans (hall x hx))]
  refine ⟨fun x hx y hy => h.uniform x (hrest x hx) y (hrest y hy),
    fun x hx => h.owners x (hrest x hx), fun j uu e hj => ?_, h.apart, fun uu r' hr' => ?_,
    h.finished, h.closed, fun p hp => ?_⟩
  · obtain ⟨htr, hkept⟩ := h.sends j uu e hj
    exact ⟨htr.frame (hothers _ (hne j uu e hj)), hkept⟩
  · obtain ⟨rfl, rfl, hleft⟩ := hd uu r' hr'
    refine ⟨?_, hleft, hwritten, hlt, hne⟩
    rw [own_of_all hall, List.length_map] at hlen
    rw [own_of_all fun x hx => hall x (hrest x hx), List.length_map, List.length_drop, hlen]
  · rcases List.mem_append.mp hp with hp | hp
    · obtain ⟨x, hx, rfl⟩ := List.mem_map.mp hp
      exact (hall x (List.mem_of_mem_take hx)).symm
    · exact h.drained p hp

theorem drainRead_inv (h : Inv s) (hstep : drainRead s k = some t) : Inv t := by
  unfold drainRead at hstep
  split at hstep
  · rename_i ss r hr
    split_ifs at hstep with hbad hdone
    · cases hstep
      have hread := h.drains (k := k) (d := none) hr nofun
      refine ⟨hread.uniform, hread.owners, hread.sends, hread.apart, hread.drain, hread.finished,
        fun uu hu => ?_, hread.drained⟩
      rcases List.mem_cons.mp hu with rfl | hu
      · exact (h.drain uu r hr).2.2.1
      · exact h.closed uu hu
    · cases hstep
      refine h.drains hr fun uu r' hr' => ?_
      simp only [Option.some.injEq, Prod.mk.injEq] at hr'
      exact ⟨hr'.1.symm, hr'.2.symm, Nat.pos_of_ne_zero hdone⟩
  · cases hstep

theorem drainFail_inv (h : Inv s) (hstep : drainFail s = some t) : Inv t := by
  unfold drainFail at hstep
  split at hstep
  · rename_i ss r hr
    cases hstep
    refine ⟨h.uniform, h.owners, h.sends, h.apart, nofun, h.finished, fun uu hu => ?_, h.drained⟩
    rcases List.mem_cons.mp hu with rfl | hu
    · exact (h.drain uu r hr).2.2.1
    · exact h.closed uu hu
  · cases hstep

theorem step_inv {a : Action n} (h : Inv s) (halone : alone s a = true)
    (hstep : step cfg s a = some t) : Inv t := by
  cases a with
  | dispatch i file plan => exact dispatchStatic_inv h hstep
  | perform i k => exact perform_inv h halone hstep
  | fail i res => exact fail_inv h hstep
  | complete i => exact complete_inv h hstep
  | drainRead k => exact drainRead_inv h hstep
  | drainFail => exact drainFail_inv h hstep

end Preservation

/-- What was written to each connection is a first part of its plan, and all of it once the
send is finished; and a send that is closed drains its own octets only. -/
structure Unmixed (s : Shard n) : Prop where
  active : ∀ i ss f, s.slots i = some (ss, f) → ss.wire.map some <+: planned ss.file ss.plan
  finished : ∀ ss ∈ s.finished, ss.wire.map some = planned ss.file ss.plan
  closing : ∀ ss r, s.draining = some (ss, r) → ss.wire.map some <+: planned ss.file ss.plan
  closed : ∀ ss ∈ s.closed, ss.wire.map some <+: planned ss.file ss.plan
  drained : ∀ d ∈ s.drained, d.1 = d.2

/-- In every run in which the kernel fills the pipe for a send only while the pipe holds no other
send's octets, and never from offset `2 ^ 64 - 1`, static responses never mix. -/
theorem static_unmixed {cfg : Cfg} {acts : List (Action n)} {s : Shard n}
    (hmeets : Meets (step cfg) (fun s a => alone s a = true) (start n) acts)
    (hrun : run (step cfg) (start n) acts = some s) : Unmixed s := by
  have keep : ∀ {s t : Shard n} {a : Action n}, Inv s → alone s a = true →
      step cfg s a = some t → Inv t := fun h hok hstep => step_inv h hok hstep
  have hinv := invariant_of_meets keep start_inv hmeets hrun
  exact ⟨fun i ss f hi => (hinv.sends i ss f hi).1.written, hinv.finished,
    fun ss r hr => (hinv.drain ss r hr).2.2.1, hinv.closed, hinv.drained⟩

def serial : List (Action 2) :=
  [.dispatch 0 [1] [.window 0 1], .dispatch 1 [2] [.window 0 1],
    .perform 0 1, .complete 0, .perform 0 1, .complete 0,
    .perform 1 1, .complete 1, .perform 1 1, .complete 1]

theorem serial_unmixed :
    ∃ s, run (step ⟨true, true⟩) (start 2) serial = some s ∧
      s.finished.map StaticSend.wire = [[2], [1]] ∧ Unmixed s := by
  have hrun : ∃ s, run (step ⟨true, true⟩) (start 2) serial = some s ∧
      s.finished.map StaticSend.wire = [[2], [1]] := ⟨_, rfl, rfl⟩
  obtain ⟨s, hrun, hwires⟩ := hrun
  exact ⟨s, hrun, hwires, static_unmixed (by decide) hrun⟩

def interleaved : List (Action 2) :=
  [.dispatch 0 [1] [.window 0 1], .dispatch 1 [2] [.window 0 1],
    .perform 0 1, .perform 1 1, .complete 1, .perform 1 1, .complete 1]

/-- The second connection is sent the first one's file, and its send is finished. -/
theorem interleaved_mixes :
    ∃ s, run (step ⟨true, true⟩) (start 2) interleaved = some s ∧
      ∃ ss ∈ s.finished, ss.wire = [1] ∧ planned ss.file ss.plan = [some 2] :=
  ⟨_, rfl, _, List.mem_cons_self, rfl, rfl⟩

end DragonsNet.Dataplane.StaticLane

/- GID: DragonsNet/Native/Listings
   source: native/jobs.c
   digest: The names of a directory as a listing keeps them, and the pages they are given out in. -/

import DragonsNet.Lib.Cells
import DragonsNet.Lib.Pages
import DragonsNet.Native.FileJobs

set_option autoImplicit false

namespace DragonsNet.Native.Listings

open Lib.Cells
open Lib.Pages

abbrev Name := List UInt8

inductive Errno where
  | nameTooLong
  | noMemory
  | other (n : ℕ)
  deriving DecidableEq, Repr

/-- What `fdopendir` and the calls of `readdir` give: an error at once, or entries and then the
end of the directory or an error. -/
inductive Dir where
  | refused (e : Errno)
  | opened (entries : List Name) (ending : Option Errno)
  deriving DecidableEq, Repr

/-- The memory a listing's names are in, `none` where nothing has been written, with the octets
and the names in it. -/
structure Names where
  cells : List (Option UInt8)
  size : ℕ
  count : ℕ
  deriving DecidableEq, Repr

def largest : ℕ := 2 ^ 63 - 1

/-- `realloc`, which may be refused any room. The cells that are new have not been written. -/
def realloc (grants : ℕ → Bool) (cells : List (Option UInt8)) (room : ℕ) :
    Option (List (Option UInt8)) :=
  if room ≤ largest ∧ grants room = true then
    some (cells.take room ++ List.replicate (room - cells.length) none)
  else none

def isDot (name : Name) : Bool := name == [46] || name == [46, 46]

def grow (grants : ℕ → Bool) (f : Names) (room len : ℕ) : Option (List (Option UInt8) × ℕ) :=
  if room < f.size + 1 + len then
    (realloc grants f.cells ((2 * room + 4096) % 2 ^ 64)).map fun cells =>
      (cells, (2 * room + 4096) % 2 ^ 64)
  else some (f.cells, room)

/-- A length octet and the octets of the name; none where a cell outside the memory is written. -/
def put (cells : List (Option UInt8)) (size : ℕ) (name : Name) : Option (List (Option UInt8)) :=
  (store cells size [some (UInt8.ofNat name.length)]).bind fun cells =>
    store cells (size + 1) (name.map some)

/-- The loop of `read_names`. None is an access outside the memory. -/
def readEntries (grants : ℕ → Bool) (ending : Option Errno) :
    List Name → Names → ℕ → Option (Except Errno Names)
  | [], f, _ =>
    match ending with
    | none => some (.ok f)
    | some e => some (.error e)
  | name :: entries, f, room =>
    if isDot name then readEntries grants ending entries f room
    else if 255 < name.length then some (.error .nameTooLong)
    else
      match grow grants f room name.length with
      | none => some (.error .noMemory)
      | some (cells, room) =>
        (put cells f.size name).bind fun cells =>
          readEntries grants ending entries ⟨cells, f.size + 1 + name.length, f.count + 1⟩ room

def readNames (grants : ℕ → Bool) : Dir → Option (Except Errno Names)
  | .refused e => some (.error e)
  | .opened entries ending => readEntries grants ending entries ⟨[], 0, 0⟩ 0

def octet (cells : List (Option UInt8)) (pos : ℕ) : Option UInt8 := (cells[pos]?).join

def skip (cells : List (Option UInt8)) : ℕ → ℕ → Option ℕ
  | 0, pos => some pos
  | k + 1, pos => (octet cells pos).bind fun len => skip cells k (pos + (1 + len.toNat))

/-- The variables of `list` when its second loop ends, and the page. -/
structure Filled where
  pos : ℕ
  used : ℕ
  count : ℕ
  page : List UInt8
  deriving DecidableEq, Repr

def copy (f : Names) (pos n used : ℕ) (page : List UInt8) : Option (List UInt8) :=
  (load f.cells pos n).bind fun cells => (written cells).bind fun octets => store page used octets

/-- The loop over the records that fit. The accesses keep each sum within the memory and the
page, so that none of them wraps. -/
def fill (f : Names) (pos used count : ℕ) (page : List UInt8) : Option Filled :=
  if pos < f.size then
    (octet f.cells pos).bind fun len =>
      if 1 + len.toNat ≤ page.length - used then
        (copy f pos (1 + len.toNat) used page).bind fun page =>
          fill f (pos + (1 + len.toNat)) (used + (1 + len.toNat)) (count + 1) page
      else some ⟨pos, used, count, page⟩
  else some ⟨pos, used, count, page⟩
termination_by f.size - pos

/-- `list`, with the page as the octets it is given: the result words or an error, and the
page. -/
def list (f : Names) (start : ℕ) (page : List UInt8) :
    Option (Except Errno (ℕ × ℕ) × List UInt8) :=
  (skip f.cells start 0).bind fun pos => (fill f pos 0 0 page).map fun r =>
    if r.pos < f.size ∧ r.count = 0 then (.error .nameTooLong, r.page)
    else (.ok (r.count, r.used), r.page)

structure Reply where
  count : ℕ
  used : ℕ
  page : List UInt8
  deriving DecidableEq, Repr

/-- A call of `list` for each page, each from the sum of the counts before. -/
def calls (f : Names) : ℕ → List (List UInt8) → Option (Except Errno (List Reply))
  | _, [] => some (.ok [])
  | start, page :: pages =>
    (list f start page).bind fun
      | (.error e, _) => some (.error e)
      | (.ok (count, used), page) =>
        (calls f (start + count) pages).map (Except.map (⟨count, used, page⟩ :: ·))

def record (name : Name) : List UInt8 := UInt8.ofNat name.length :: name

def encode (names : List Name) : List UInt8 := names.flatMap record

def listed (entries : List Name) : List Name := entries.filter fun name => !isDot name

def weight (name : Name) : ℕ := 1 + name.length

@[simp] theorem length_record (name : Name) : (record name).length = weight name := by
  rw [record, weight, List.length_cons, Nat.add_comm]

@[simp] theorem encode_nil : encode [] = [] := rfl

@[simp] theorem encode_cons (name : Name) (names : List Name) :
    encode (name :: names) = record name ++ encode names := rfl

@[simp] theorem encode_append (names more : List Name) :
    encode (names ++ more) = encode names ++ encode more := List.flatMap_append

private theorem toNat_lengthOctet {name : Name} (h : name.length ≤ 255) :
    (UInt8.ofNat name.length).toNat = name.length := by
  rw [UInt8.toNat_ofNat']
  omega

structure Holds (f : Names) (names : List Name) : Prop where
  cells : ∃ spare, f.cells = (encode names).map some ++ spare
  size : f.size = (encode names).length
  count : f.count = names.length
  short : ∀ name ∈ names, name.length ≤ 255

/-- While the directory is read the memory is as large as its room, which grows by doubling. -/
structure Reads (f : Names) (room : ℕ) (names : List Name) : Prop extends Holds f names where
  room_eq : f.cells.length = room
  room_le : room ≤ largest
  room_dvd : 4096 ∣ room

theorem Reads.start : Reads ⟨[], 0, 0⟩ 0 [] where
  cells := ⟨[], rfl⟩
  size := rfl
  count := rfl
  short _ h := by cases h
  room_eq := rfl
  room_le := Nat.zero_le _
  room_dvd := Nat.dvd_zero _

section Reading

variable {grants : ℕ → Bool} {f : Names} {room room' : ℕ} {names : List Name} {name : Name}
  {cells : List (Option UInt8)}

private theorem put_behind (xs : List UInt8) (spare : List (Option UInt8))
    (hfits : weight name ≤ spare.length) :
    put (xs.map some ++ spare) xs.length name =
      some ((xs ++ record name).map some ++ spare.drop (weight name)) := by
  have hfirst := store_behind (xs.map some) spare [some (UInt8.ofNat name.length)] (by
    rw [weight] at hfits
    rw [List.length_singleton]
    omega)
  have hsecond := store_behind (xs.map some ++ [some (UInt8.ofNat name.length)]) (spare.drop 1)
    (name.map some) (by
      rw [weight] at hfits
      rw [List.length_map, List.length_drop]
      omega)
  simp only [List.length_map, List.length_append, List.length_singleton] at hfirst hsecond
  rw [put, hfirst, Option.bind_some, hsecond, weight, List.drop_drop, record]
  simp only [List.map_append, List.map_cons, List.append_assoc, List.singleton_append]

private theorem Reads.grow (h : Reads f room names) (hshort : name.length ≤ 255)
    (hgrow : grow grants f room name.length = some (cells, room')) :
    (∃ spare, cells = (encode names).map some ++ spare ∧ weight name ≤ spare.length) ∧
      cells.length = room' ∧ room' ≤ largest ∧ 4096 ∣ room' := by
  obtain ⟨spare, hcells⟩ := h.cells
  have hlength : f.size + spare.length = room := by
    rw [← h.room_eq, hcells, List.length_append, List.length_map, h.size]
  unfold Listings.grow at hgrow
  split at hgrow
  case isTrue hless =>
    have hroom := h.room_le
    obtain ⟨k, hk⟩ := h.room_dvd
    have hwrap : (2 * room + 4096) % 2 ^ 64 = 2 * room + 4096 := by
      rw [largest] at hroom
      omega
    rw [hwrap, realloc] at hgrow
    split at hgrow
    case isTrue hgrant =>
      cases hgrow
      have htake : f.cells.take (2 * room + 4096) = f.cells := by
        apply List.take_of_length_le
        rw [h.room_eq]
        omega
      refine ⟨⟨spare ++ List.replicate (2 * room + 4096 - f.cells.length) none, ?_, ?_⟩, ?_,
        hgrant.1, ?_⟩
      · rw [htake, hcells, List.append_assoc]
      · rw [List.length_append, List.length_replicate, h.room_eq, weight]
        omega
      · rw [htake, List.length_append, List.length_replicate, h.room_eq]
        omega
      · omega
    case isFalse => cases hgrow
  case isFalse hmore =>
    cases hgrow
    refine ⟨⟨spare, hcells, ?_⟩, h.room_eq, h.room_le, h.room_dvd⟩
    rw [weight]
    omega

theorem Reads.put (h : Reads f room names) (hshort : name.length ≤ 255)
    (hgrow : Listings.grow grants f room name.length = some (cells, room')) :
    ∃ cells', put cells f.size name = some cells' ∧
      Reads ⟨cells', f.size + 1 + name.length, f.count + 1⟩ room' (names ++ [name]) := by
  obtain ⟨⟨spare, rfl, hfits⟩, hlength, hle, hdvd⟩ := h.grow hshort hgrow
  refine ⟨_, h.size ▸ put_behind (encode names) spare hfits, ?_, ?_, hle, hdvd⟩
  · refine ⟨⟨spare.drop (weight name), ?_⟩, ?_, ?_, ?_⟩
    · rw [encode_append, encode_cons, encode_nil, List.append_nil]
    · simp [h.size, weight]
      omega
    · rw [h.count, List.length_append, List.length_singleton]
    · intro other hother
      rcases List.mem_append.mp hother with hold | hnew
      · exact h.short other hold
      · rwa [List.mem_singleton.mp hnew]
  · simp only [List.length_append, List.length_map, List.length_drop, length_record] at hlength ⊢
    omega

private theorem listed_cons_dot (hdot : isDot name = true) (entries : List Name) :
    listed (name :: entries) = listed entries := by simp [listed, hdot]

private theorem listed_cons (hname : ¬ isDot name = true) (entries : List Name) :
    listed (name :: entries) = name :: listed entries := by simp [listed, hname]

private theorem readEntries_cons {cells' : List (Option UInt8)} {ending : Option Errno}
    (hname : ¬ isDot name = true) (hshort : name.length ≤ 255)
    (hgrow : Listings.grow grants f room name.length = some (cells, room'))
    (hput : Listings.put cells f.size name = some cells') (entries : List Name) :
    readEntries grants ending (name :: entries) f room =
      readEntries grants ending entries ⟨cells', f.size + 1 + name.length, f.count + 1⟩ room' := by
  rw [readEntries, if_neg hname, if_neg (Nat.not_lt.mpr hshort), hgrow]
  show (Listings.put cells f.size name).bind _ = _
  rw [hput, Option.bind_some]

private theorem readEntries_spec (grants : ℕ → Bool) (h : Reads f room names)
    (ending : Option Errno) (entries : List Name) :
    ∃ r, readEntries grants ending entries f room = some r ∧
      ∀ g, r = .ok g → Holds g (names ++ listed entries) := by
  induction entries generalizing f room names with
  | nil =>
    cases ending with
    | none =>
      refine ⟨_, rfl, ?_⟩
      rintro g ⟨⟩
      rw [listed, List.filter_nil, List.append_nil]
      exact h.toHolds
    | some e =>
      refine ⟨_, rfl, ?_⟩
      rintro g ⟨⟩
  | cons name entries ih =>
    by_cases hdot : isDot name = true
    · rw [readEntries, if_pos hdot, listed_cons_dot hdot]
      exact ih h
    by_cases hlong : 255 < name.length
    · rw [readEntries, if_neg hdot, if_pos hlong]
      refine ⟨_, rfl, ?_⟩
      rintro g ⟨⟩
    cases hgrow : Listings.grow grants f room name.length with
    | none =>
      rw [readEntries, if_neg hdot, if_neg hlong, hgrow]
      refine ⟨_, rfl, ?_⟩
      rintro g ⟨⟩
    | some grown =>
      obtain ⟨cells, room'⟩ := grown
      obtain ⟨cells', hput, hreads⟩ := h.put (Nat.le_of_not_lt hlong) hgrow
      rw [readEntries_cons hdot (Nat.le_of_not_lt hlong) hgrow hput, listed_cons hdot,
        ← List.singleton_append, ← List.append_assoc]
      exact ih hreads

private theorem exists_grow (room : ℕ) (hgrants : ∀ room, grants room = true)
    (hsmall : f.size ≤ 2 ^ 61)
    (hshort : name.length ≤ 255) :
    ∃ cells room', grow grants f room name.length = some (cells, room') := by
  unfold Listings.grow
  split
  case isTrue hless =>
    have hasked : (2 * room + 4096) % 2 ^ 64 ≤ largest := by
      rw [largest]
      omega
    rw [realloc, if_pos ⟨hasked, hgrants _⟩]
    exact ⟨_, _, rfl⟩
  case isFalse => exact ⟨_, _, rfl⟩

private theorem readEntries_ok (h : Reads f room names) (hgrants : ∀ room, grants room = true)
    (entries : List Name) (hshort : ∀ name ∈ entries, name.length ≤ 255)
    (hsmall : (encode (names ++ listed entries)).length ≤ 2 ^ 61) :
    ∃ g, readEntries grants none entries f room = some (.ok g) := by
  induction entries generalizing f room names with
  | nil => exact ⟨f, rfl⟩
  | cons name entries ih =>
    have hshort' : ∀ other ∈ entries, other.length ≤ 255 :=
      fun other hother => hshort other (List.mem_cons_of_mem name hother)
    by_cases hdot : isDot name = true
    · rw [listed_cons_dot hdot] at hsmall
      rw [readEntries, if_pos hdot]
      exact ih h hshort' hsmall
    have hlength := hshort name List.mem_cons_self
    have hsize : f.size ≤ 2 ^ 61 := by
      rw [encode_append, List.length_append] at hsmall
      rw [h.size]
      omega
    obtain ⟨cells, room', hgrow⟩ := exists_grow room hgrants hsize hlength
    obtain ⟨cells', hput, hreads⟩ := h.put hlength hgrow
    rw [listed_cons hdot, ← List.singleton_append, ← List.append_assoc] at hsmall
    rw [readEntries_cons hdot hlength hgrow hput]
    exact ih hreads hshort' hsmall

end Reading

section Giving

variable {f : Names} {names : List Name} {spare : List (Option UInt8)}

private theorem octet_record {cells : List (Option UInt8)} {before after : List UInt8} {name : Name}
    (hcells : cells = (before ++ (record name ++ after)).map some ++ spare) :
    octet cells before.length = some (UInt8.ofNat name.length) := by
  rw [octet, hcells, List.map_append, List.append_assoc, ← List.length_map some,
    List.getElem?_append_right (Nat.le_refl _), Nat.sub_self]
  rfl

private theorem skip_spec {cells : List (Option UInt8)} (before : List UInt8) (names : List Name)
    (hcells : cells = (before ++ encode names).map some ++ spare)
    (hshort : ∀ name ∈ names, name.length ≤ 255) (k : ℕ) (hk : k ≤ names.length) :
    skip cells k before.length = some (before ++ encode (names.take k)).length := by
  induction k generalizing before names with
  | zero =>
    rw [List.take_zero, encode_nil, List.append_nil]
    rfl
  | succ k ih =>
    cases names with
    | nil => cases hk
    | cons name names =>
      rw [encode_cons] at hcells
      have hname := toNat_lengthOctet (hshort name List.mem_cons_self)
      have hnext : before.length + (1 + name.length) = (before ++ record name).length := by
        rw [List.length_append, length_record, weight]
      rw [← List.append_assoc] at hcells
      have hrest := ih (before ++ record name) names hcells
        (fun n hn => hshort n (List.mem_cons_of_mem name hn)) (Nat.le_of_succ_le_succ hk)
      rw [List.append_assoc] at hcells
      rw [skip, octet_record hcells, Option.bind_some, hname, hnext, hrest, List.take_succ_cons,
        encode_cons, List.append_assoc]

private theorem copy_record {before after done free : List UInt8} {name : Name}
    (hcells : f.cells = (before ++ (record name ++ after)).map some ++ spare)
    (hfits : weight name ≤ free.length) :
    copy f before.length (weight name) done.length (done ++ free) =
      some (done ++ record name ++ free.drop (weight name)) := by
  have hload : load f.cells before.length (weight name) = some ((record name).map some) := by
    have hmiddle := load_middle (before.map some) ((record name).map some) (after.map some ++ spare)
    rw [List.length_map, List.length_map, length_record] at hmiddle
    rw [hcells, List.map_append, List.map_append, List.append_assoc, List.append_assoc, hmiddle]
  have hstore := store_behind done free (record name) (by rwa [length_record])
  rw [copy, hload, Option.bind_some, written_map_some, Option.bind_some, hstore, length_record]

def given (room : ℕ) (names : List Name) : List Name := names.take (fits weight room names)

private theorem fill_spec {rest : List Name} (before done free : List UInt8) (count : ℕ)
    (hcells : f.cells = (before ++ encode rest).map some ++ spare)
    (hsize : f.size = (before ++ encode rest).length)
    (hshort : ∀ name ∈ rest, name.length ≤ 255) :
    fill f before.length done.length count (done ++ free) =
      some ⟨(before ++ encode (given free.length rest)).length,
        (done ++ encode (given free.length rest)).length,
        count + (given free.length rest).length,
        done ++ encode (given free.length rest) ++
          free.drop (encode (given free.length rest)).length⟩ := by
  induction rest generalizing before done free count with
  | nil =>
    have hend : ¬ before.length < f.size := by
      rw [hsize, encode_nil, List.append_nil]
      exact Nat.lt_irrefl _
    rw [fill, if_neg hend]
    simp [given]
  | cons name rest ih =>
    have hmore : before.length < f.size := by
      rw [hsize, encode_cons, List.length_append, List.length_append, length_record, weight]
      omega
    have hname := toNat_lengthOctet (hshort name List.mem_cons_self)
    have hfree : (done ++ free).length - done.length = free.length := by
      rw [List.length_append, Nat.add_sub_cancel_left]
    rw [encode_cons] at hcells
    rw [fill, if_pos hmore, octet_record hcells, Option.bind_some, hname, hfree, ← weight]
    by_cases hfits : weight name ≤ free.length
    · have hgiven : given free.length (name :: rest) =
          name :: given (free.length - weight name) rest := by
        rw [given, fits, if_pos hfits, List.take_succ_cons, given]
      rw [if_pos hfits, copy_record hcells hfits, Option.bind_some, hgiven]
      rw [← List.append_assoc] at hcells
      have hrest := ih (before ++ record name) (done ++ record name) (free.drop (weight name))
        (count + 1) hcells (by rw [hsize, encode_cons, List.append_assoc])
        (fun n hn => hshort n (List.mem_cons_of_mem name hn))
      simp only [List.length_append, length_record, List.length_drop, List.drop_drop] at hrest
      rw [hrest]
      simp [Nat.add_assoc, Nat.add_comm]
    · have hgiven : given free.length (name :: rest) = [] := by
        rw [given, fits, if_neg hfits, List.take_zero]
      rw [if_neg hfits, hgiven]
      simp

private theorem given_ne_nil (hshort : ∀ name ∈ names, name.length ≤ 255) {room : ℕ}
    (hroom : 256 ≤ room)
    (hne : names ≠ []) : given room names ≠ [] := by
  have hpos : 0 < fits weight room names := by
    refine fits_pos weight hne ?_
    intro name hname
    have hlength := hshort name hname
    rw [weight]
    omega
  rw [given, ne_eq, List.take_eq_nil_iff, not_or]
  exact ⟨Nat.ne_of_gt hpos, hne⟩

private theorem encode_eq_nil_iff : encode names = [] ↔ names = [] := by
  cases names with
  | nil => exact iff_of_true rfl rfl
  | cons name names => exact iff_of_false (List.cons_ne_nil _ _) (List.cons_ne_nil _ _)

/-- A page as a call leaves it: the records of some names, and behind them what it held. -/
def pageOf (page : List UInt8) (names : List Name) : List UInt8 :=
  encode names ++ page.drop (encode names).length

theorem Holds.list (h : Holds f names) {start : ℕ} (hstart : start ≤ names.length)
    (page : List UInt8) :
    list f start page =
      some (if given page.length (names.drop start) = [] ∧ names.drop start ≠ [] then
          .error .nameTooLong
        else .ok ((given page.length (names.drop start)).length,
          (encode (given page.length (names.drop start))).length),
        pageOf page (given page.length (names.drop start))) := by
  obtain ⟨spare, hcells⟩ := h.cells
  have hskip := skip_spec [] names hcells h.short start hstart
  have hsplit : encode names = encode (names.take start) ++ encode (names.drop start) := by
    rw [← encode_append, List.take_append_drop]
  have hfill := fill_spec (encode (names.take start)) [] page 0
    (by rw [hcells, hsplit]) (by rw [h.size, hsplit])
    (fun name hname => h.short name (List.mem_of_mem_drop hname))
  have hfails : ((encode (names.take start) ++ encode (given page.length (names.drop start))).length <
        f.size ∧ (given page.length (names.drop start)).length = 0) ↔
      given page.length (names.drop start) = [] ∧ names.drop start ≠ [] := by
    rw [and_comm, List.length_eq_zero_iff]
    refine and_congr_right fun hnone => ?_
    rw [hnone, h.size, hsplit, encode_nil, List.append_nil, List.length_append, ne_eq,
      ← encode_eq_nil_iff, ← List.length_eq_zero_iff]
    omega
  simp only [List.nil_append, List.length_nil, Nat.zero_add] at hfill hskip
  rw [Listings.list, hskip, Option.bind_some, hfill, Option.map_some, pageOf]
  simp only [hfails]
  split <;> rfl

theorem length_encode (names : List Name) : (encode names).length = (names.map weight).sum := by
  induction names with
  | nil => rfl
  | cons name names ih =>
    rw [encode_cons, List.length_append, length_record, ih, List.map_cons, List.sum_cons]

/-- A call ends as the table of jobs takes it to: with no more octets than the page has, and their
number. -/
theorem Holds.possible (h : Holds f names) {start : ℕ} (hstart : start ≤ names.length)
    {page page' : List UInt8} {result : ℕ × ℕ}
    (hlist : Listings.list f start page = some (.ok result, page')) (place gen at_ : ℕ) :
    ∃ octets, FileJobs.possible (.list place gen start page.length at_) (.ok result octets) = true ∧
      page' = FileJobs.splice page 0 octets := by
  have hle : (encode (given page.length (names.drop start))).length ≤ page.length := by
    rw [length_encode, given]
    exact sum_take_fits_le weight page.length (names.drop start)
  rw [h.list hstart page] at hlist
  split at hlist
  case isTrue => cases hlist
  case isFalse =>
    cases hlist
    refine ⟨encode (given page.length (names.drop start)), ?_, ?_⟩
    · simp [FileJobs.possible, hle]
    · rw [pageOf, FileJobs.splice, List.take_zero, List.nil_append, Nat.zero_add]

def reply (page : List UInt8) (names : List Name) : Reply :=
  ⟨names.length, (encode names).length, pageOf page names⟩

private theorem length_given (room : ℕ) (names : List Name) :
    (given room names).length = fits weight room names := by
  rw [given, List.length_take, Nat.min_eq_left (fits_le_length weight room names)]

theorem Holds.calls (h : Holds f names) (pages : List (List UInt8))
    (hroom : ∀ page ∈ pages, 256 ≤ page.length) {start : ℕ} (hstart : start ≤ names.length) :
    calls f start pages = some (.ok (List.zipWith reply pages
      (deal weight (pages.map List.length) (names.drop start)))) := by
  induction pages generalizing start with
  | nil => rfl
  | cons page pages ih =>
    have hgoes : ¬ (given page.length (names.drop start) = [] ∧ names.drop start ≠ []) := by
      rintro ⟨hnone, hne⟩
      refine given_ne_nil ?_ (hroom page List.mem_cons_self) hne hnone
      intro name hname
      exact h.short name (List.mem_of_mem_drop hname)
    have hnext : start + (given page.length (names.drop start)).length ≤ names.length := by
      have hle := fits_le_length weight page.length (names.drop start)
      rw [List.length_drop] at hle
      rw [length_given]
      omega
    have hleft : names.drop (start + (given page.length (names.drop start)).length) =
        (names.drop start).drop (fits weight page.length (names.drop start)) := by
      rw [length_given, List.drop_drop]
    have hrest := ih (fun p hp => hroom p (List.mem_cons_of_mem page hp)) hnext
    rw [Listings.calls, h.list hstart, if_neg hgoes, Option.bind_some]
    show (Listings.calls f _ pages).map _ = _
    rw [hrest, hleft]
    rfl

end Giving

theorem readNames_ne_none (grants : ℕ → Bool) (dir : Dir) : readNames grants dir ≠ none := by
  cases dir with
  | refused e => exact Option.some_ne_none _
  | opened entries ending =>
    obtain ⟨r, hr, _⟩ := readEntries_spec grants Reads.start ending entries
    rw [readNames, hr]
    exact Option.some_ne_none r

private theorem holds_of_readNames {grants : ℕ → Bool} {entries : List Name} {ending : Option Errno}
    {f : Names}
    (hread : readNames grants (.opened entries ending) = some (.ok f)) : Holds f (listed entries) := by
  obtain ⟨r, hr, hholds⟩ := readEntries_spec grants Reads.start ending entries
  exact hholds f (Option.some.inj (hr.symm.trans hread))

private theorem readNames_ok (grants : ℕ → Bool) (entries : List Name)
    (hgrants : ∀ room, grants room = true)
    (hshort : ∀ name ∈ entries, name.length ≤ 255)
    (hsmall : (encode (listed entries)).length ≤ 2 ^ 61) :
    ∃ f, readNames grants (.opened entries none) = some (.ok f) :=
  readEntries_ok Reads.start hgrants entries hshort hsmall

theorem pages_give_names (grants : ℕ → Bool) (entries : List Name) (f : Names)
    (hread : readNames grants (.opened entries none) = some (.ok f)) (pages : List (List UInt8))
    (hroom : ∀ page ∈ pages, 256 ≤ page.length) :
    ∃ shares : List (List Name), shares.length = pages.length ∧
      calls f 0 pages = some (.ok (List.zipWith reply pages shares)) ∧
      (∀ (i : ℕ) (share : List Name), shares[i]? = some share →
        (share ≠ [] ↔ (shares.take i).flatten ≠ listed entries)) ∧
      shares.flatten <+: listed entries ∧
      ((listed entries).length ≤ pages.length → shares.flatten = listed entries) := by
  have hholds := holds_of_readNames hread
  have hrooms : ∀ room ∈ pages.map List.length, ∀ name ∈ listed entries, weight name ≤ room := by
    intro room hmem name hname
    obtain ⟨page, hpage, rfl⟩ := List.mem_map.mp hmem
    have hlength := hholds.short name hname
    have hpageRoom := hroom page hpage
    rw [weight]
    omega
  refine ⟨deal weight (pages.map List.length) (listed entries), ?_, ?_, ?_, ?_, ?_⟩
  · rw [length_deal, List.length_map]
  · exact hholds.calls pages hroom (Nat.zero_le _)
  · intro i share hshare
    exact page_nonempty_iff hrooms hshare
  · exact flatten_deal_prefix weight _ _
  · intro henough
    refine flatten_deal hrooms ?_
    rwa [List.length_map]

/-- Two names between the two entries that are left out, on three pages of 256 octets. -/
theorem pages_give_two : ∃ f, readNames (fun _ => true)
      (.opened [[46], [97], [46, 46], [98, 99]] none) = some (.ok f) ∧
    ∃ shares : List (List Name), shares.flatten = [[97], [98, 99]] ∧
      calls f 0 (List.replicate 3 (List.replicate 256 0)) =
        some (.ok (List.zipWith reply (List.replicate 3 (List.replicate 256 0)) shares)) := by
  obtain ⟨f, hread⟩ := readNames_ok (fun _ => true) [[46], [97], [46, 46], [98, 99]] (fun _ => rfl)
    (by decide) (by decide)
  have hroom : ∀ page ∈ List.replicate 3 (List.replicate 256 (0 : UInt8)), 256 ≤ page.length := by
    intro page hpage
    exact Nat.le_of_eq (by rw [List.eq_of_mem_replicate hpage, List.length_replicate])
  obtain ⟨shares, _, hcalls, _, _, hall⟩ := pages_give_names _ _ f hread _ hroom
  exact ⟨f, hread, shares, hall (by decide), hcalls⟩

end DragonsNet.Native.Listings

import NyxDb.Lib.Parser
import NyxDb.Lib.Run
import NyxDb.Storage.Error

/-!
# What a peer makes the receiver of a snapshot do

The paths and the sizes of the files come from the peer.  A path is put behind the data directory
as it is, so that `..` leads out of it, and a size is compared with nothing: a file that is opened
again is emptied, and one without pieces is never made.

Here the handlers work on all files of the system, in any order and after errors too.  What the
system calls answer comes with the frame.

Which peers do no harm is said of the frames alone: `Transfer` follows them and keeps what was
announced and what was sent, without looking at the receiver, and `AsAnnounced` is the condition on
the next frame.

* `Within`: only files in the data directory were touched, whatever the system calls answer.
* `Matches`: while no error was reported, the files on the disk have the sizes that were sent.
* `snapshot_confined`: both hold along every run, and at the end the sizes are those announced.
-/

namespace NyxDb.Replication

open List

/-! ## Frames and errors -/

def slash : UInt8 := 0x2F

inductive SnapshotFrame where
  | replSnapshotMeta (payload : Bytes)
  | replSnapshotData (payload : Bytes)
  | replSnapshotEnd (payload : Bytes)
  deriving DecidableEq, Repr

inductive SnapshotError where
  | metaTruncated
  | metaTruncatedAt (file : Nat)
  | metaTruncatedPath
  | dataTruncated
  | dataInvalidFile
  | mkdirFailed
  | cannotCreate (path : Bytes)
  | endTruncated
  deriving DecidableEq, Repr

/-- The text of an error; what the system says of it is left out. -/
def SnapshotError.message : SnapshotError → Bytes
  | .metaTruncated => ascii "REPL_SNAPSHOT_META: truncated"
  | .metaTruncatedAt file => ascii s!"REPL_SNAPSHOT_META: truncated at file {file}"
  | .metaTruncatedPath => ascii "REPL_SNAPSHOT_META: truncated path/size"
  | .dataTruncated => ascii "REPL_SNAPSHOT_DATA: truncated"
  | .dataInvalidFile => ascii "REPL_SNAPSHOT_DATA: invalid file_idx"
  | .mkdirFailed => ascii "snapshot: mkdir failed: "
  | .cannotCreate path => ascii "snapshot: cannot create " ++ path ++ ascii ": "
  | .endTruncated => ascii "REPL_SNAPSHOT_END: truncated"

/-- A file of the list, with the bytes that were written of it so far. -/
structure SnapFile where
  relPath : Bytes
  expectedSize : Nat
  received : Nat
  deriving DecidableEq, Repr

/-! ## The receiver -/

/-- A file by the names on the way to it. -/
abbrev Path : Type := List Bytes

/-- One part of the text of a path. -/
def follow (p : Path) (part : Bytes) : Path :=
  if part = [] ∨ part = ascii "." then p
  else if part = ascii ".." then p.dropLast
  else p ++ [part]

/-- The file that is opened for a text, which ends at the first zero byte.  There are no symbolic
links. -/
def resolve (text : Bytes) : Path :=
  ((text.takeWhile (· ≠ 0)).splitOn slash).foldl follow []

/-- The answers of `create_directories`, of `open`, and of `write`, which may write less than it is
given. -/
structure Calls where
  mkdir : Bool
  opened : Bool
  written : Option Nat

/-- The receiver and the files of the system.  The last three fields are of the model only: which
files were created, emptied or written, whether a handler has reported an error since the list of
files came, and whether the last frame was the end. -/
structure Receiving where
  disk : Path → Option Bytes
  files : List SnapFile
  currentIdx : Nat
  currentFd : Option Path
  touched : List Path
  failed : Bool
  ended : Bool

namespace Receiving

/-- `on_meta` keeps the entries before the one that is cut off. -/
def readMeta : Nat → Nat → Bytes → List SnapFile × Option SnapshotError
  | 0, _, _ => ([], none)
  | count + 1, i, bs =>
    if bs.length < 2 then ([], some (.metaTruncatedAt i))
    else
      let pathLen := leNat (bs.take 2)
      let rest := bs.drop 2
      if rest.length < pathLen + 8 then ([], some .metaTruncatedPath)
      else
        let (more, err) := readMeta count (i + 1) (rest.drop (pathLen + 8))
        (⟨rest.take pathLen, leNat ((rest.drop pathLen).take 8), 0⟩ :: more, err)

def listed (payload : Bytes) : List SnapFile × Option SnapshotError :=
  if payload.length < 4 then ([], some .metaTruncated)
  else readMeta (leNat (payload.take 4)) 0 (payload.drop 4)

variable (dataRoot : Bytes)

def fullPath (relPath : Bytes) : Bytes :=
  dataRoot ++ slash :: relPath

def onMeta (payload : Bytes) (s : Receiving) : Receiving × Option Bytes :=
  ({ s with files := (listed payload).1, currentIdx := 0, currentFd := none },
    (listed payload).2.map SnapshotError.message)

/-- A piece of another file closes the open one. -/
def select (idx : Nat) (s : Receiving) : Receiving :=
  if idx ≠ s.currentIdx then { s with currentIdx := idx, currentFd := none } else s

def openFile (p : Path) (s : Receiving) : Receiving :=
  { s with
    disk := Function.update s.disk p (some [])
    currentFd := some p
    touched := p :: s.touched }

/-- Append to the open file. -/
def write (p : Path) (data : Bytes) (written : Option Nat) (s : Receiving) :
    Receiving × Option Bytes :=
  match written with
  | none => (s, some (ascii "snapshot: write failed: "))
  | some n =>
    ({ s with
      disk := Function.update s.disk p (some ((s.disk p).getD [] ++ data.take n))
      files := s.files.modify s.currentIdx fun f =>
        { f with received := f.received + (data.take n).length }
      touched := p :: s.touched }, none)

/-- A piece of the current file, which may have to be opened. -/
def piece (f : SnapFile) (data : Bytes) (calls : Calls) (s : Receiving) :
    Receiving × Option Bytes :=
  match s.currentFd with
  | some p => s.write p data calls.written
  | none =>
    let full := fullPath dataRoot f.relPath
    if calls.mkdir = false then (s, some SnapshotError.mkdirFailed.message)
    else if calls.opened = false then (s, some (SnapshotError.cannotCreate full).message)
    else (s.openFile (resolve full)).write (resolve full) data calls.written

def onData (payload : Bytes) (calls : Calls) (s : Receiving) : Receiving × Option Bytes :=
  if payload.length < 4 then (s, some SnapshotError.dataTruncated.message)
  else
    let fileIdx := leNat (payload.take 4)
    match s.files[fileIdx]? with
    | none => (s, some SnapshotError.dataInvalidFile.message)
    | some f => (s.select fileIdx).piece dataRoot f (payload.drop 4) calls

def onEnd (payload : Bytes) (s : Receiving) : Receiving × Option Bytes :=
  ({ s with currentFd := none },
    if payload.length < 8 then some SnapshotError.endTruncated.message else none)

/-- One frame of the peer. -/
def step (s : Receiving) : SnapshotFrame × Calls → Receiving
  | (.replSnapshotMeta payload, _) =>
    let (s', err) := s.onMeta payload
    { s' with failed := err.isSome, ended := false }
  | (.replSnapshotData payload, calls) =>
    let (s', err) := s.onData dataRoot payload calls
    { s' with failed := s.failed || err.isSome, ended := false }
  | (.replSnapshotEnd payload, _) =>
    let (s', err) := s.onEnd payload
    { s' with failed := s.failed || err.isSome, ended := true }

/-- A new receiver. -/
def start (disk : Path → Option Bytes) : Receiving :=
  ⟨disk, [], 0, none, [], false, false⟩

/-! ## Confinement -/

/-- The file at a path that the peer has named. -/
def place (relPath : Bytes) : Path :=
  resolve (fullPath dataRoot relPath)

abbrev Inside (p : Path) : Prop :=
  resolve dataRoot <+: p ∧ p ≠ resolve dataRoot

/-- Only files in the data directory were touched, and at the end each listed file has the size
that was announced, or an error has been reported. -/
structure Confined (s : Receiving) : Prop where
  confined : ∀ p ∈ s.touched, Inside dataRoot p
  complete : s.ended = true → s.failed = true ∨
    ∀ f ∈ s.files, (s.disk (place dataRoot f.relPath)).map length = some f.expectedSize

end Receiving

/-! ## The frames of the peer -/

def SnapFile.announced (f : SnapFile) : Bytes × Nat :=
  (f.relPath, f.expectedSize)

/-- What a peer has sent since its last list of files: the paths and sizes it has announced, the
files of which there was a piece, how many bytes the pieces of each file had, and the file of the
last piece, unless the end came after it. -/
structure Transfer where
  files : List (Bytes × Nat)
  begun : List Nat
  amount : Nat → Nat
  last : Option Nat

namespace Transfer

def start : Transfer :=
  ⟨[], [], fun _ => 0, none⟩

/-- A piece without a file number or for a file that was not announced counts for nothing. -/
def step (t : Transfer) : SnapshotFrame × Calls → Transfer
  | (.replSnapshotMeta payload, _) =>
    ⟨(Receiving.listed payload).1.map SnapFile.announced, [], fun _ => 0, none⟩
  | (.replSnapshotData payload, _) =>
    let i := leNat (payload.take 4)
    if payload.length < 4 ∨ t.files.length ≤ i then t
    else
      { t with
        begun := i :: t.begun
        amount := Function.update t.amount i (t.amount i + (payload.length - 4))
        last := some i }
  | (.replSnapshotEnd _, _) => { t with last := none }

variable (dataRoot : Bytes)

/-- The peer names different files in the data directory and sends the pieces of a file one after
the other, each of which is written whole or not at all; it ends when it has sent of every file as
much as it announced, of an empty file an empty piece. -/
def AsAnnounced (t : Transfer) : SnapshotFrame × Calls → Prop
  | (.replSnapshotMeta payload, _) =>
    let places := (Receiving.listed payload).1.map fun f => Receiving.place dataRoot f.relPath
    (∀ p ∈ places, Receiving.Inside dataRoot p) ∧ places.Nodup
  | (.replSnapshotData payload, calls) =>
    let i := leNat (payload.take 4)
    (t.last = some i ∨ i ∉ t.begun) ∧ ∀ n ∈ calls.written, payload.length - 4 ≤ n
  | (.replSnapshotEnd _, _) => ∀ x ∈ t.files.zipIdx, x.2 ∈ t.begun ∧ t.amount x.2 = x.1.2

end Transfer

/-! ## What the receiver does with them -/

namespace Receiving

variable (dataRoot : Bytes)

/-- The receiver has the list of the peer, and whatever it has touched is in the data directory. -/
structure Within (t : Transfer) (s : Receiving) : Prop where
  listed : s.files.map SnapFile.announced = t.files
  inside : ∀ a ∈ t.files, Inside dataRoot (place dataRoot a.1)
  apart : (t.files.map fun a => place dataRoot a.1).Nodup
  confined : ∀ p ∈ s.touched, Inside dataRoot p
  current : ∀ p ∈ s.currentFd, Inside dataRoot p

/-- The file of the last piece is open, and each file of which there was a piece has the size that
was sent. -/
structure Matches (t : Transfer) (s : Receiving) : Prop where
  closed : t.last = none → s.currentFd = none
  opened : ∀ i, t.last = some i → i ∈ t.begun ∧ s.currentIdx = i ∧
    ∀ a, t.files[i]? = some a → s.currentFd = some (place dataRoot a.1)
  unsent : ∀ i ∉ t.begun, t.amount i = 0
  sizes : ∀ i ∈ t.begun, ∀ a, t.files[i]? = some a →
    (s.disk (place dataRoot a.1)).map length = some (t.amount i)

variable {dataRoot} {t : Transfer} {s : Receiving}

theorem announced_modify (fs : List SnapFile) (idx n : Nat) :
    (fs.modify idx fun f => { f with received := f.received + n }).map SnapFile.announced =
      fs.map SnapFile.announced := by
  induction fs generalizing idx with
  | nil => simp
  | cons f fs ih =>
    cases idx with
    | zero => simp [SnapFile.announced]
    | succ idx => simpa using ih idx

/-! ### Staying inside -/

namespace Within

variable (h : Within dataRoot t s)
include h

/-- Only the list of the peer matters, and none of the marks of the model. -/
theorem mark {t' : Transfer} (ht : t'.files = t.files) (failed ended : Bool) :
    Within dataRoot t' { s with failed := failed, ended := ended } := by
  refine ⟨?_, ?_, ?_, h.confined, h.current⟩ <;> rw [ht]
  · exact h.listed
  · exact h.inside
  · exact h.apart

theorem place_ne {i j : Nat} {a b : Bytes × Nat} (ha : t.files[i]? = some a)
    (hb : t.files[j]? = some b) (hij : i ≠ j) : place dataRoot a.1 ≠ place dataRoot b.1 := by
  intro heq
  refine hij ((getElem?_inj (i := i) (j := j) ?_ h.apart).mp ?_)
  · rw [length_map]
    exact (List.getElem?_eq_some_iff.mp ha).1
  · simp [ha, hb, heq]

theorem close (idx : Nat) : Within dataRoot t { s with currentIdx := idx, currentFd := none } :=
  { h with current := nofun }

theorem select (idx : Nat) : Within dataRoot t (s.select idx) := by
  unfold Receiving.select
  split_ifs
  · exact h.close idx
  · exact h

theorem openFile {p : Path} (hp : Inside dataRoot p) : Within dataRoot t (s.openFile p) :=
  { h with
    confined := forall_mem_cons.mpr ⟨hp, h.confined⟩
    current := fun _ hq => Option.some.inj hq ▸ hp }

theorem write {p : Path} (hp : Inside dataRoot p) (data : Bytes) (written : Option Nat) :
    Within dataRoot t (s.write p data written).1 := by
  cases written with
  | none => exact h
  | some n =>
    exact { h with
      listed := (announced_modify _ _ _).trans h.listed
      confined := forall_mem_cons.mpr ⟨hp, h.confined⟩ }

theorem piece {f : SnapFile} (hf : f ∈ s.files) (data : Bytes) (calls : Calls) :
    Within dataRoot t (s.piece dataRoot f data calls).1 := by
  have hplace : Inside dataRoot (place dataRoot f.relPath) :=
    h.inside f.announced (h.listed ▸ mem_map_of_mem hf)
  unfold Receiving.piece
  split
  · next p hp => exact h.write (h.current p hp) data _
  · split_ifs
    · exact h
    · exact h
    · exact (h.openFile hplace).write hplace data _

theorem onData (payload : Bytes) (calls : Calls) :
    Within dataRoot t (s.onData dataRoot payload calls).1 := by
  unfold Receiving.onData
  split_ifs
  · exact h
  dsimp only
  split
  · exact h
  · next f hf =>
    have hfiles : (s.select (leNat (payload.take 4))).files = s.files := by
      unfold Receiving.select
      split_ifs <;> rfl
    exact (h.select _).piece (hfiles ▸ mem_of_getElem? hf) _ calls

theorem step (e : SnapshotFrame × Calls) (hok : t.AsAnnounced dataRoot e) :
    Within dataRoot (t.step e) (s.step dataRoot e) := by
  obtain ⟨frame, calls⟩ := e
  cases frame with
  | replSnapshotMeta payload =>
    obtain ⟨hinside, hapart⟩ := hok
    refine ⟨rfl, fun a ha => ?_, ?_, h.confined, nofun⟩
    · obtain ⟨f, hf, rfl⟩ := mem_map.mp ha
      exact hinside _ (mem_map_of_mem hf)
    · rw [Transfer.step, map_map]
      exact hapart
  | replSnapshotData payload =>
    refine (h.onData payload calls).mark ?_ _ false
    rw [Transfer.step]
    split_ifs <;> rfl
  | replSnapshotEnd payload =>
    refine (h.close s.currentIdx).mark ?_ _ true
    rfl

end Within

/-! ### What is on the disk -/

/-- A piece that is taken without an error is appended to the open file, or to a new one. -/
theorem piece_ok {f : SnapFile} {data : Bytes} {calls : Calls}
    (hnone : (s.piece dataRoot f data calls).2 = none) :
    ∃ n ∈ calls.written, ∃ p old,
      (s.currentFd = some p ∧ old = (s.disk p).getD [] ∨
        s.currentFd = none ∧ p = place dataRoot f.relPath ∧ old = []) ∧
      (s.piece dataRoot f data calls).1.disk =
        Function.update s.disk p (some (old ++ data.take n)) ∧
      (s.piece dataRoot f data calls).1.currentFd = some p ∧
      (s.piece dataRoot f data calls).1.currentIdx = s.currentIdx := by
  cases hwritten : calls.written with
  | none =>
    unfold piece at hnone
    rw [hwritten] at hnone
    split at hnone
    · cases hnone
    · split_ifs at hnone
      cases hnone
  | some n =>
    unfold piece at hnone ⊢
    rw [hwritten] at hnone ⊢
    split
    · next p hp => exact ⟨n, rfl, p, _, .inl ⟨hp, rfl⟩, rfl, hp, rfl⟩
    · next hfd =>
      rw [hfd] at hnone
      dsimp only at hnone
      split_ifs at hnone ⊢
      refine ⟨n, rfl, place dataRoot f.relPath, [], .inr ⟨hfd, rfl, rfl⟩, ?_, rfl, rfl⟩
      show Function.update (Function.update s.disk _ _) _ _ = _
      rw [Function.update_idem]
      simp [openFile, place]

namespace Matches

variable (h : Matches dataRoot t s)
include h

theorem mark (failed ended : Bool) :
    Matches dataRoot t { s with failed := failed, ended := ended } :=
  { h with }

theorem close : Matches dataRoot { t with last := none } { s with currentFd := none } :=
  { h with closed := fun _ => rfl, opened := nofun }

/-- The receiver has the right file open for the next piece, or none if this is the first piece. -/
theorem select {i : Nat} {a : Bytes × Nat} (ha : t.files[i]? = some a)
    (hnext : t.last = some i ∨ i ∉ t.begun) :
    (s.select i).currentIdx = i ∧ (s.select i).disk = s.disk ∧
      ((s.select i).currentFd = some (place dataRoot a.1) ∧ i ∈ t.begun ∨
        (s.select i).currentFd = none ∧ i ∉ t.begun) := by
  unfold Receiving.select
  split_ifs with hidx
  · refine ⟨rfl, rfl, .inr ⟨rfl, hnext.resolve_left fun hlast => ?_⟩⟩
    exact hidx (h.opened i hlast).2.1.symm
  · have hcurrent : i = s.currentIdx := not_not.mp hidx
    refine ⟨hcurrent.symm, rfl, ?_⟩
    rcases hnext with hlast | hbegun
    · obtain ⟨hmem, -, hfd⟩ := h.opened i hlast
      exact .inl ⟨hfd a ha, hmem⟩
    · refine .inr ⟨h.closed ?_, hbegun⟩
      cases hlast : t.last with
      | none => rfl
      | some j =>
        obtain ⟨hmem, hj, -⟩ := h.opened j hlast
        exact absurd (hcurrent.trans hj ▸ hmem) hbegun

theorem onData (hw : Within dataRoot t s) {payload : Bytes} {calls : Calls}
    (hok : t.AsAnnounced dataRoot (.replSnapshotData payload, calls))
    (hnone : (s.onData dataRoot payload calls).2 = none) :
    Matches dataRoot (t.step (.replSnapshotData payload, calls))
      (s.onData dataRoot payload calls).1 := by
  obtain ⟨hnext, hwhole⟩ := hok
  have hlen : ¬ payload.length < 4 := by
    intro hshort
    rw [Receiving.onData, if_pos hshort] at hnone
    cases hnone
  rw [Receiving.onData, if_neg hlen] at hnone ⊢
  dsimp only at hnone hnext hwhole ⊢
  generalize hi : leNat (payload.take 4) = i at *
  cases hfile : s.files[i]? with
  | none =>
    rw [hfile] at hnone
    cases hnone
  | some f =>
    rw [hfile] at hnone
    dsimp only at hnone ⊢
    have ha : t.files[i]? = some f.announced := by
      rw [← hw.listed, getElem?_map, hfile]
      rfl
    have hlt : i < t.files.length := (List.getElem?_eq_some_iff.mp ha).1
    obtain ⟨hidx, hdisk, hopen⟩ := h.select ha hnext
    obtain ⟨n, hn, p, old, hfd, hnew, hcurrent, hsame⟩ := piece_ok hnone
    -- what is appended to, and what it holds so far
    have hold : p = place dataRoot f.relPath ∧ old.length = t.amount i := by
      rcases hopen with ⟨hfd', hbegun⟩ | ⟨hfd', hbegun⟩ <;> rw [hfd'] at hfd
      · obtain ⟨hp, rfl⟩ := hfd.resolve_right fun hr => Option.some_ne_none _ hr.1
        obtain rfl := Option.some.inj hp
        obtain ⟨bs, hbs, hsize⟩ := Option.map_eq_some_iff.mp (h.sizes i hbegun _ ha)
        exact ⟨rfl, by rw [hdisk, hbs, Option.getD_some, hsize]⟩
      · obtain ⟨-, hp, rfl⟩ := hfd.resolve_left fun hl => Option.some_ne_none _ hl.1.symm
        exact ⟨hp, (h.unsent i hbegun).symm⟩
    obtain ⟨rfl, hsize⟩ := hold
    have hstep : t.step (.replSnapshotData payload, calls) =
        { t with
          begun := i :: t.begun
          amount := Function.update t.amount i (t.amount i + (payload.length - 4))
          last := some i } := by
      rw [Transfer.step, hi, if_neg (by omega)]
    rw [hstep]
    refine ⟨nofun, ?_, ?_, ?_⟩
    · rintro j hj
      obtain rfl := Option.some.inj hj
      refine ⟨mem_cons_self, hsame.trans hidx, fun a ha' => ?_⟩
      obtain rfl := Option.some.inj (ha.symm.trans ha')
      exact hcurrent
    · intro j hj
      obtain ⟨hne, hbegun⟩ := not_or.mp (mem_cons.not.mp hj)
      exact (Function.update_of_ne hne _ _).trans (h.unsent j hbegun)
    · intro j hj b hb
      rw [hnew, hdisk]
      dsimp only
      by_cases hij : j = i
      · subst hij
        obtain rfl := Option.some.inj (ha.symm.trans hb)
        have hself : f.announced.1 = f.relPath := rfl
        rw [hself, Function.update_self, Function.update_self, Option.map_some, length_append,
          take_of_length_le (by rw [length_drop]; exact hwhole n hn), length_drop, hsize]
      · rw [Function.update_of_ne hij, Function.update_of_ne]
        · exact h.sizes j ((mem_cons.mp hj).resolve_left hij) b hb
        · exact hw.place_ne hb ha hij

end Matches

variable (dataRoot) in
/-- What every frame keeps. -/
structure InStep (t : Transfer) (s : Receiving) : Prop where
  inside : Within dataRoot t s
  sizes : s.failed = false → Matches dataRoot t s
  confined : Confined dataRoot s

namespace InStep

variable (h : InStep dataRoot t s)
include h

/-- After the end, what was sent is what was announced. -/
theorem complete {payload : Bytes} {calls : Calls}
    (hok : t.AsAnnounced dataRoot (.replSnapshotEnd payload, calls)) (hfine : s.failed = false) :
    ∀ f ∈ s.files, (s.disk (place dataRoot f.relPath)).map length = some f.expectedSize := by
  intro f hf
  obtain ⟨i, hi⟩ := getElem?_of_mem hf
  have ha : t.files[i]? = some f.announced := by
    rw [← h.inside.listed, getElem?_map, hi]
    rfl
  obtain ⟨hbegun, hamount⟩ := hok (f.announced, i) (mem_zipIdx_iff_getElem?.mpr ha)
  have hsize := (h.sizes hfine).sizes i hbegun _ ha
  rwa [hamount] at hsize

theorem step (e : SnapshotFrame × Calls) (hok : t.AsAnnounced dataRoot e) :
    InStep dataRoot (t.step e) (s.step dataRoot e) := by
  have hwithin := h.inside.step e hok
  obtain ⟨frame, calls⟩ := e
  cases frame with
  | replSnapshotMeta payload =>
    exact ⟨hwithin, fun _ => ⟨fun _ => rfl, nofun, fun _ _ => rfl, nofun⟩,
      hwithin.confined, nofun⟩
  | replSnapshotData payload =>
    refine ⟨hwithin, fun hfine => ?_, hwithin.confined, nofun⟩
    change (s.failed || (s.onData dataRoot payload calls).2.isSome) = false at hfine
    obtain ⟨hbefore, hnone⟩ := Bool.or_eq_false_iff.mp hfine
    rw [Option.isSome_eq_false_iff, Option.isNone_iff_eq_none] at hnone
    exact ((h.sizes hbefore).onData h.inside hok hnone).mark _ _
  | replSnapshotEnd payload =>
    refine ⟨hwithin, fun hfine => ?_, hwithin.confined, fun _ => ?_⟩
    · exact (h.sizes (Bool.or_eq_false_iff.mp hfine).1).close.mark _ _
    · cases hfine : s.failed with
      | true => exact .inl (by rw [Receiving.step, hfine]; rfl)
      | false => exact .inr (h.complete hok hfine)

end InStep

/-- A list of one file of two bytes, a piece of it, and the end; all calls succeed. -/
def oneFile (relPath data : Bytes) : List (SnapshotFrame × Calls) :=
  [.replSnapshotMeta (leBytes 4 1 ++ leBytes 2 relPath.length ++ relPath ++ leBytes 8 2),
    .replSnapshotData (leBytes 4 0 ++ data), .replSnapshotEnd (leBytes 8 16)].map
      fun frame => (frame, ⟨true, true, some 2⟩)

end Receiving
end NyxDb.Replication

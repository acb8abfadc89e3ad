import NyxDb.Lib.Loop
import NyxDb.Server.Wire

/-!
# The receive loop

Four classes keep a receive buffer and run the same loop over it: append what has come in, and as
long as the first frame is complete, handle it and erase as many bytes as its length says.  They
differ in what a frame makes them do (`react`): pass it to a handler, ignore it, or make another
object and give it the whole buffer.

Against that stands the stream seen as frames (`framesOf`) and a machine that takes one frame after
the other (`advance`, `takes`, `emits`).  As long as no length is below that of a header the loop is
that machine (`Follows.drain`), so what it does depends on the stream only, not on the pieces in
which it arrives (`Follows.receiveAll`).
-/

namespace NyxDb.Server

open Replication (frameHeaderSize)
open List Loop

variable {S E O : Type}

/-- What a class does with a frame. -/
inductive Reaction (S E : Type) where
  | passed (next : S) (effects : List E)
  | ignored
  | handOff (next : S)

/-- A frame that has been taken off the buffer, the payload its handler got, if it has one, and
what the handler did. -/
structure Entry (E : Type) where
  header : FrameHeader
  frame : Bytes
  payload : Option Payload
  effects : List E

/-- A class with a receive buffer.  `turns` counts the turns of its loop, `log` is the history of
the frames it has taken off. -/
structure Receiver (S E : Type) where
  state : S
  buf : Bytes
  turns : Nat
  log : List (Entry E)

namespace Receiver

/-- The frame at the front is erased. -/
def erase (r : Receiver S E) (hdr : FrameHeader) (payload : Option Payload) (next : S)
    (effects : List E) : Receiver S E where
  state := next
  buf := r.buf.drop hdr.length
  turns := r.turns + 1
  log := r.log ++ [⟨hdr, r.buf.take hdr.length, payload, effects⟩]

section Loop

variable (past : Nat → Nat → UInt8) (react : Nat → S → FrameHeader → Payload → Reaction S E)

/-- One turn of the loop.  `past n` is what the memory behind the buffer holds in the turn `n`. -/
def iterate (r : Receiver S E) : Option (Receiver S E) :=
  match nextHeader r.buf with
  | none => none
  | some hdr =>
    let payload := received r.buf (past r.turns) hdr
    match react r.turns r.state hdr payload with
    | .passed next effects => some (r.erase hdr (some payload) next effects)
    | .ignored => some (r.erase hdr none r.state [])
    | .handOff next => some { r with state := next, turns := r.turns + 1 }

/-- Some bytes are put into the buffer. -/
def append (r : Receiver S E) (data : Bytes) : Receiver S E :=
  { r with buf := r.buf ++ data }

/-- `on_data`, with a bound on the number of turns. -/
def onData (fuel : Nat) (r : Receiver S E) (data : Bytes) : Option (Receiver S E) :=
  run (iterate past react) fuel (r.append data)

/-- One call of `on_data` after the other. -/
def receiveAll (fuel : Nat) : Receiver S E → List Bytes → Option (Receiver S E)
  | r, [] => some r
  | r, data :: chunks =>
    match onData past react fuel r data with
    | none => none
    | some r' => receiveAll fuel r' chunks

end Loop

/-- What is to be seen of the calls of handlers. -/
def observed (obs : FrameHeader → Payload → List E → O) (r : Receiver S E) : List O :=
  r.log.filterMap fun e => e.payload.map fun p => obs e.header p e.effects

/-- The calls of handlers: type, number of the query and payload. -/
def calls (r : Receiver S E) : List (FrameType × Nat × Bytes) :=
  r.observed fun hdr p _ => (hdr.type, hdr.queryId, p.bytes)

variable {past : Nat → Nat → UInt8} {react : Nat → S → FrameHeader → Payload → Reaction S E}

variable {r : Receiver S E} {hdr : FrameHeader}

theorem iterate_of_none (h : nextHeader r.buf = none) : iterate past react r = none := by
  rw [iterate, h]

section

variable (h : nextHeader r.buf = some hdr)
include h

theorem iterate_of_passed {next : S} {effects : List E}
    (hr : react r.turns r.state hdr (received r.buf (past r.turns) hdr) = .passed next effects) :
    iterate past react r =
      some (r.erase hdr (some (received r.buf (past r.turns) hdr)) next effects) := by
  rw [iterate, h]
  simp [hr]

theorem iterate_of_ignored
    (hr : react r.turns r.state hdr (received r.buf (past r.turns) hdr) = .ignored) :
    iterate past react r = some (r.erase hdr none r.state []) := by
  rw [iterate, h]
  simp [hr]

theorem iterate_of_handOff {next : S}
    (hr : react r.turns r.state hdr (received r.buf (past r.turns) hdr) = .handOff next) :
    iterate past react r = some { r with state := next, turns := r.turns + 1 } := by
  rw [iterate, h]
  simp [hr]

end

theorem iterate_cases {r' : Receiver S E} (h : iterate past react r = some r') :
    ∃ hdr, nextHeader r.buf = some hdr ∧ ((∃ next effects,
          react r.turns r.state hdr (received r.buf (past r.turns) hdr) = .passed next effects ∧
          r' = r.erase hdr (some (received r.buf (past r.turns) hdr)) next effects) ∨
        (react r.turns r.state hdr (received r.buf (past r.turns) hdr) = .ignored ∧
          r' = r.erase hdr none r.state []) ∨
        ∃ next, react r.turns r.state hdr (received r.buf (past r.turns) hdr) = .handOff next ∧
          r' = { r with state := next, turns := r.turns + 1 }) := by
  cases hnext : nextHeader r.buf with
  | none =>
    rw [iterate_of_none hnext] at h
    cases h
  | some hdr =>
    refine ⟨hdr, rfl, ?_⟩
    cases hr : react r.turns r.state hdr (received r.buf (past r.turns) hdr) with
    | passed next effects =>
      rw [iterate_of_passed hnext hr, Option.some.injEq] at h
      exact .inl ⟨next, effects, rfl, h.symm⟩
    | ignored =>
      rw [iterate_of_ignored hnext hr, Option.some.injEq] at h
      exact .inr (.inl ⟨rfl, h.symm⟩)
    | handOff next =>
      rw [iterate_of_handOff hnext hr, Option.some.injEq] at h
      exact .inr (.inr ⟨next, rfl, h.symm⟩)

/-- The loop never stops at a frame of no bytes: whatever a turn does, the frame is still there. -/
theorem not_halts_of_zero (h : nextHeader r.buf = some hdr) (hzero : hdr.length = 0) :
    ¬ Halts (iterate past react) r := by
  apply not_halts_of_invariant (I := fun r => nextHeader r.buf = some hdr) _ h
  intro r hr
  cases hreact : react r.turns r.state hdr (received r.buf (past r.turns) hdr) with
  | passed next effects =>
    refine ⟨_, iterate_of_passed hr hreact, ?_⟩
    show nextHeader (r.buf.drop hdr.length) = some hdr
    rwa [hzero]
  | ignored =>
    refine ⟨_, iterate_of_ignored hr hreact, ?_⟩
    show nextHeader (r.buf.drop hdr.length) = some hdr
    rwa [hzero]
  | handOff next => exact ⟨_, iterate_of_handOff hr hreact, hr⟩

end Receiver

/-! ## The machine over frames -/

/-- A frame with this header that is met in the state `s` is ignored or passed to a handler by the
owner `s₁` of the buffer as a machine over frames says: `takes` is true of the types that are passed
on, `advance` is the state after a handler that sees the payload of the frame and nothing else, and
`emits` what is to be seen of the call. -/
structure Meets (react : Nat → S → FrameHeader → Payload → Reaction S E)
    (obs : FrameHeader → Payload → List E → O) (takes : S → FrameType → Bool)
    (advance : S → RawFrame → S) (emits : S → RawFrame → O) (s : S) (hdr : FrameHeader)
    (s₁ : S) : Prop where
  ignored : takes s hdr.type = false →
    (∀ n p, react n s₁ hdr p = .ignored) ∧ ∀ bytes, advance s ⟨hdr, bytes⟩ = s₁
  passed : takes s hdr.type = true → ∀ n p, ∃ next effects,
    react n s₁ hdr p = .passed next effects ∧ ∀ bytes, p.Shows (RawFrame.payload ⟨hdr, bytes⟩) →
        advance s ⟨hdr, bytes⟩ = next ∧ emits s ⟨hdr, bytes⟩ = obs hdr p effects

/-- The loop's reactions are those of the machine; a frame is handed on at most once before it is
handled or ignored. -/
structure Follows (react : Nat → S → FrameHeader → Payload → Reaction S E)
    (obs : FrameHeader → Payload → List E → O) (takes : S → FrameType → Bool)
    (advance : S → RawFrame → S) (emits : S → RawFrame → O) : Prop where
  owner : ∀ s hdr, ∃ s₁, ((∀ n p, react n s hdr p = .handOff s₁) ∨ s₁ = s) ∧
      Meets react obs takes advance emits s hdr s₁

/-- What is to be seen of a list of frames: each frame whose type is passed on in the state in which
it is met. -/
def observations (takes : S → FrameType → Bool) (advance : S → RawFrame → S)
    (emits : S → RawFrame → O) : S → List RawFrame → List O
  | _, [] => []
  | s, f :: fs =>
    (if takes s f.header.type then [emits s f] else []) ++
      observations takes advance emits (advance s f) fs

/-- The calls for a list of frames: each with its payload. -/
def callsOf (takes : S → FrameType → Bool) (advance : S → RawFrame → S) :
    S → List RawFrame → List (FrameType × Nat × Bytes) :=
  observations takes advance fun _ f => (f.header.type, f.header.queryId, f.payload)

/-- No length of the stream is below that of a header. -/
def Framed (bs : Bytes) : Prop :=
  (∀ f ∈ (framesOf bs).1, frameHeaderSize ≤ f.header.length) ∧
    ∀ hdr, decodeHeader (framesOf bs).2 = some hdr → frameHeaderSize ≤ hdr.length

/-- A turn that takes a frame off the buffer takes at least one byte off, and no handler gets a
payload that ends behind its frame. -/
def Receiver.StaysInFrame (past : Nat → Nat → UInt8)
    (react : Nat → S → FrameHeader → Payload → Reaction S E) (r : Receiver S E) : Prop :=
  ∀ r' e, Receiver.iterate past react r = some r' → r'.log = r.log ++ [e] →
    r'.buf.length < r.buf.length ∧
      ∀ p, e.payload = some p → frameHeaderSize + p.len ≤ e.header.length

/-- The loop stops, and all its turns stay in their frames. -/
def Receiver.Total (past : Nat → Nat → UInt8)
    (react : Nat → S → FrameHeader → Payload → Reaction S E) (r : Receiver S E) : Prop :=
  Halts (Receiver.iterate past react) r ∧
    Holds (Receiver.iterate past react) (Receiver.StaysInFrame past react) r

/-- The frames of a stream that the machine can take from a state on: none is of no bytes, and
those that go to a handler are not shorter than a header. -/
def Acceptable (takes : S → FrameType → Bool) (advance : S → RawFrame → S) (s : S)
    (bs : Bytes) : Prop :=
  (∀ before f after, (framesOf bs).1 = before ++ f :: after →
    frameHeaderSize ≤ f.header.length ∨ takes (before.foldl advance s) f.header.type = false) ∧
    ∀ hdr, decodeHeader (framesOf bs).2 = some hdr → hdr.length ≠ 0

section Follows

variable {past : Nat → Nat → UInt8} {react : Nat → S → FrameHeader → Payload → Reaction S E}
  {obs : FrameHeader → Payload → List E → O} {takes : S → FrameType → Bool}
  {advance : S → RawFrame → S} {emits : S → RawFrame → O}

open Receiver

variable {hdr : FrameHeader} {s : S} {bs : Bytes} {r : Receiver S E}

/-- A frame that is handed on is met by its owner as one that the owner receives itself. -/
theorem Meets.of_owner {s₁ : S} (htakes : takes s hdr.type = takes s₁ hdr.type)
    (hadvance : ∀ bytes, advance s ⟨hdr, bytes⟩ = advance s₁ ⟨hdr, bytes⟩)
    (hemits : ∀ bytes, emits s ⟨hdr, bytes⟩ = emits s₁ ⟨hdr, bytes⟩)
    (h : Meets react obs takes advance emits s₁ hdr s₁) :
    Meets react obs takes advance emits s hdr s₁ where
  ignored := by
    intro hno
    obtain ⟨hreact, hstay⟩ := h.ignored (htakes ▸ hno)
    exact ⟨hreact, fun bytes => (hadvance bytes).trans (hstay bytes)⟩
  passed := by
    intro hyes n p
    obtain ⟨next, effects, hreact, hnext⟩ := h.passed (htakes ▸ hyes) n p
    refine ⟨next, effects, hreact, ?_⟩
    intro bytes hp
    rw [hadvance, hemits]
    exact hnext bytes hp

theorem acceptable_of_none (h : nextHeader bs = none) : Acceptable takes advance s bs := by
  have hframes : framesOf bs = ([], bs) := Framing.frames_of_none (cutFrame_of_none h)
  constructor
  · intro before f after hsplit
    rw [hframes] at hsplit
    cases before <;> cases hsplit
  · intro hdr hhdr hzero
    rw [hframes] at hhdr
    rw [nextHeader_eq_some.mpr ⟨hhdr, by omega⟩] at h
    cases h

section

variable (h : nextHeader bs = some hdr)
include h

theorem not_acceptable_of_zero (hzero : hdr.length = 0) : ¬ Acceptable takes advance s bs := by
  intro hacc
  have hframes : framesOf bs = ([], bs) := Framing.frames_of_none (cutFrame_of_zero h hzero)
  apply hacc.2 hdr _ hzero
  rw [hframes]
  exact (nextHeader_eq_some.mp h).1

theorem framesOf_of_some (hpos : hdr.length ≠ 0) :
    framesOf bs = (⟨hdr, bs.take hdr.length⟩ :: (framesOf (bs.drop hdr.length)).1,
      (framesOf (bs.drop hdr.length)).2) :=
  cuts_cutFrame.frames_of_some (cutFrame_of_some h hpos)

theorem acceptable_of_some (hpos : hdr.length ≠ 0) :
    Acceptable takes advance s bs ↔ (frameHeaderSize ≤ hdr.length ∨ takes s hdr.type = false) ∧
        Acceptable takes advance (advance s ⟨hdr, bs.take hdr.length⟩) (bs.drop hdr.length) := by
  unfold Acceptable
  rw [framesOf_of_some h hpos]
  constructor
  · rintro ⟨hall, hrest⟩
    refine ⟨hall [] _ _ rfl, ?_, hrest⟩
    intro before f after hsplit
    exact hall (_ :: before) f after (by rw [hsplit]; rfl)
  · rintro ⟨hfirst, hall, hrest⟩
    refine ⟨?_, hrest⟩
    intro before f after hsplit
    cases before with
    | nil =>
      cases hsplit
      exact hfirst
    | cons g before =>
      rw [cons_append, cons.injEq] at hsplit
      obtain ⟨rfl, hsplit⟩ := hsplit
      exact hall before f after hsplit

end

/-! ### Termination -/

/-- A payload ends inside its frame exactly if the frame is not shorter than a header: below, the
length of the payload is almost `2 ^ 64`. -/
theorem received_inside (buf : Bytes) (behind : Nat → UInt8) (hdr : FrameHeader) :
    frameHeaderSize + (received buf behind hdr).len ≤ hdr.length ↔
      frameHeaderSize ≤ hdr.length := by
  show frameHeaderSize + subU64 hdr.length frameHeaderSize ≤ hdr.length ↔ _
  unfold subU64
  split <;> omega

theorem total_of_none (h : iterate past react r = none) : Total past react r := by
  constructor
  · exact ⟨1, r, run_of_none h 0⟩
  · rw [holds_of_none h]
    intro r' e h'
    rw [h] at h'
    cases h'

theorem total_of_handOff {r₁ : Receiver S E} (h : iterate past react r = some r₁)
    (hlog : r₁.log = r.log) : Total past react r ↔ Total past react r₁ := by
  unfold Receiver.Total
  rw [halts_of_some h, holds_of_some h]
  have hstays : StaysInFrame past react r := by
    intro r' e h' hlog'
    rw [h, Option.some.injEq] at h'
    rw [← h', hlog, self_eq_append_right] at hlog'
    cases hlog'
  rw [and_iff_right hstays]

theorem total_of_erase {payload : Option Payload} {next : S} {effects : List E}
    (hnext : nextHeader r.buf = some hdr) (hpos : hdr.length ≠ 0)
    (h : iterate past react r = some (r.erase hdr payload next effects)) :
    Total past react r ↔ (∀ p, payload = some p → frameHeaderSize + p.len ≤ hdr.length) ∧
        Total past react (r.erase hdr payload next effects) := by
  have hshort : (r.buf.drop hdr.length).length < r.buf.length :=
    cuts_cutFrame.shrinks (cutFrame_of_some hnext hpos)
  have hstays : StaysInFrame past react r ↔
      ∀ p, payload = some p → frameHeaderSize + p.len ≤ hdr.length := by
    constructor
    · intro hs
      exact (hs _ _ h rfl).2
    · intro hp r' e h' hlog
      rw [h, Option.some.injEq] at h'
      subst h'
      obtain rfl := singleton_inj.mp (append_cancel_left hlog)
      exact ⟨hshort, hp⟩
  unfold Receiver.Total
  rw [halts_of_some h, holds_of_some h, hstays, and_left_comm]

/-- The turns for one frame: it may be handed on, then it is ignored or passed to a handler, which
leaves the state of the machine if the frame holds its payload. -/
theorem Follows.frame (hf : Follows react obs takes advance emits) (past : Nat → Nat → UInt8)
    (hnext : nextHeader r.buf = some hdr) :
    ∃ r₁ : Receiver S E, r₁.buf = r.buf ∧ r₁.log = r.log ∧
      (r₁ = r ∨ iterate past react r = some r₁) ∧
      (takes r.state hdr.type = false → iterate past react r₁ =
        some (r₁.erase hdr none (advance r.state ⟨hdr, r.buf.take hdr.length⟩) [])) ∧
      (takes r.state hdr.type = true → ∃ next effects, iterate past react r₁ =
          some (r₁.erase hdr (some (received r.buf (past r₁.turns) hdr)) next effects) ∧
        (frameHeaderSize ≤ hdr.length → advance r.state ⟨hdr, r.buf.take hdr.length⟩ = next ∧
          emits r.state ⟨hdr, r.buf.take hdr.length⟩ =
            obs hdr (received r.buf (past r₁.turns) hdr) effects)) := by
  obtain ⟨s₁, howner, hmeets⟩ := hf.owner r.state hdr
  obtain ⟨r₁, hstate, hbuf, hlog, hstep⟩ : ∃ r₁ : Receiver S E, r₁.state = s₁ ∧ r₁.buf = r.buf ∧
      r₁.log = r.log ∧ (r₁ = r ∨ iterate past react r = some r₁) := by
    rcases howner with hoff | rfl
    · exact ⟨{ r with state := s₁, turns := r.turns + 1 }, rfl, rfl, rfl,
        .inr (iterate_of_handOff hnext (hoff _ _))⟩
    · exact ⟨r, rfl, rfl, rfl, .inl rfl⟩
  have hnext₁ : nextHeader r₁.buf = some hdr := by rw [hbuf, hnext]
  refine ⟨r₁, hbuf, hlog, hstep, ?_, ?_⟩
  · intro hno
    obtain ⟨hreact, hadvance⟩ := hmeets.ignored hno
    rw [hadvance, ← hstate]
    exact iterate_of_ignored hnext₁ (by rw [hstate]; exact hreact _ _)
  · intro hyes
    obtain ⟨next, effects, hreact, hshows⟩ :=
      hmeets.passed hyes r₁.turns (received r.buf (past r₁.turns) hdr)
    refine ⟨next, effects, ?_, ?_⟩
    · rw [← hbuf] at hreact ⊢
      exact iterate_of_passed hnext₁ (by rw [hstate]; exact hreact)
    · intro hlen
      exact hshows _ (received_shows hnext hlen _)

/-- **When the loop is total**: exactly on the buffers whose frames the machine can take. -/
theorem Follows.total_iff (hf : Follows react obs takes advance emits) (r : Receiver S E) :
    Total past react r ↔ Acceptable takes advance r.state r.buf := by
  induction hlen : r.buf.length using Nat.strongRecOn generalizing r with
  | ind n ih =>
    cases hnext : nextHeader r.buf with
    | none =>
      exact iff_of_true (total_of_none (iterate_of_none hnext)) (acceptable_of_none hnext)
    | some hdr =>
      by_cases hzero : hdr.length = 0
      · exact iff_of_false (fun h => not_halts_of_zero hnext hzero h.1)
          (not_acceptable_of_zero hnext hzero)
      · have hshort : (r.buf.drop hdr.length).length < n :=
          hlen ▸ cuts_cutFrame.shrinks (cutFrame_of_some hnext hzero)
        obtain ⟨r₁, hbuf, hlog, hstep, hfree, htaken⟩ := hf.frame past hnext
        have hnext₁ : nextHeader r₁.buf = some hdr := by rw [hbuf, hnext]
        have hfirst : Total past react r ↔ Total past react r₁ := by
          rcases hstep with rfl | hstep
          · exact Iff.rfl
          · exact total_of_handOff hstep hlog
        -- The rest of the buffer is the induction hypothesis at the state after the frame.
        have hrest : ∀ payload next effects,
            Total past react (r₁.erase hdr payload next effects) ↔
              Acceptable takes advance next (r.buf.drop hdr.length) := by
          intro payload next effects
          have := ih _ hshort (r₁.erase hdr payload next effects) (by
            show (r₁.buf.drop hdr.length).length = _
            rw [hbuf])
          rw [this]
          show Acceptable takes advance next (r₁.buf.drop hdr.length) ↔ _
          rw [hbuf]
        rw [hfirst, acceptable_of_some hnext hzero]
        cases hkind : takes r.state hdr.type with
        | false =>
          rw [total_of_erase hnext₁ hzero (hfree hkind), hrest]
          simp
        | true =>
          obtain ⟨next, effects, hiter, hadvance⟩ := htaken hkind
          rw [total_of_erase hnext₁ hzero hiter, hrest]
          simp only [Option.some.injEq, forall_eq', received_inside, Bool.true_eq_false, or_false]
          constructor
          · rintro ⟨hle, hacc⟩
            exact ⟨hle, (hadvance hle).1.symm ▸ hacc⟩
          · rintro ⟨hle, hacc⟩
            exact ⟨hle, (hadvance hle).1 ▸ hacc⟩

/-! ### Streams in pieces -/

theorem Framed.length_le (hb : Framed bs) (h : decodeHeader bs = some hdr) :
    frameHeaderSize ≤ hdr.length := by
  cases hnext : nextHeader bs with
  | none =>
    apply hb.2
    rwa [show framesOf bs = ([], bs) from Framing.frames_of_none (cutFrame_of_none hnext)]
  | some hdr' =>
    have heq : hdr' = hdr := by
      have := (nextHeader_eq_some.mp hnext).1
      rw [h, Option.some.injEq] at this
      exact this.symm
    subst heq
    by_cases hzero : hdr'.length = 0
    · apply hb.2
      rwa [show framesOf bs = ([], bs) from Framing.frames_of_none (cutFrame_of_zero hnext hzero)]
    · apply hb.1 ⟨hdr', bs.take hdr'.length⟩
      rw [framesOf_of_some hnext hzero]
      exact mem_cons_self

theorem Framed.tail (hb : Framed bs) (h : nextHeader bs = some hdr) :
    Framed (bs.drop hdr.length) := by
  have hlen := hb.length_le (nextHeader_eq_some.mp h).1
  have hpos : hdr.length ≠ 0 := by
    have hnine : frameHeaderSize = 9 := rfl
    omega
  unfold Framed at hb
  rw [framesOf_of_some h hpos] at hb
  exact ⟨fun f hf => hb.1 f (mem_cons_of_mem _ hf), hb.2⟩

/-- What the first piece leaves, with the second. -/
theorem Framed.rest {more : Bytes} (hb : Framed (bs ++ more)) :
    Framed ((framesOf bs).2 ++ more) := by
  unfold Framed at hb
  rw [framesOf_append] at hb
  exact ⟨fun f hf => hb.1 f (mem_append_right _ hf), hb.2⟩

theorem Framed.of_append {more : Bytes} (hb : Framed (bs ++ more)) : Framed bs := by
  constructor
  · intro f hf
    apply hb.1
    rw [framesOf_append]
    exact mem_append_left _ hf
  · intro hdr hhdr
    exact hb.rest.length_le (decodeHeader_append hhdr more)

/-- Less than a header is left in the buffer. -/
theorem framesOf_of_short (h : bs.length < frameHeaderSize) : framesOf bs = ([], bs) := by
  apply Framing.frames_of_none
  apply cutFrame_of_none
  rw [nextHeader, decodeHeader_eq_none.mpr h]

theorem framed_of_short (h : bs.length < frameHeaderSize) : Framed bs := by
  unfold Framed
  rw [framesOf_of_short h]
  constructor
  · intro f hf
    cases hf
  · intro hdr hhdr
    rw [decodeHeader_eq_none.mpr h] at hhdr
    cases hhdr

theorem framed_streamSend_append (type : FrameType) (queryId : Nat) {payload rest : Bytes}
    (h : frameHeaderSize ≤ (frameHeaderSize + payload.length) % 2 ^ 32) (hrest : Framed rest) :
    Framed (streamSend (frameBytes type queryId payload) ++ rest) := by
  unfold Framed
  rw [framesOf_streamSend_append type queryId h]
  constructor
  · intro f hf
    rcases mem_cons.mp hf with rfl | hf
    · exact h
    · exact hrest.1 f hf
  · exact hrest.2

/-- The machine with what is to be seen of it. -/
def record (takes : S → FrameType → Bool) (advance : S → RawFrame → S) (emits : S → RawFrame → O)
    (x : S × List O) (f : RawFrame) : S × List O :=
  (advance x.1 f, x.2 ++ if takes x.1 f.header.type then [emits x.1 f] else [])

theorem foldl_record (s : S) (done : List O) (fs : List RawFrame) :
    fs.foldl (record takes advance emits) (s, done) =
      (fs.foldl advance s, done ++ observations takes advance emits s fs) := by
  induction fs generalizing s done with
  | nil => rw [foldl_nil, foldl_nil, observations, append_nil]
  | cons f fs ih =>
    rw [foldl_cons, foldl_cons, record, ih, observations, append_assoc]

/-- A receiver as the machine over frames sees it. -/
def Receiver.view (obs : FrameHeader → Payload → List E → O) (r : Receiver S E) :
    (S × List O) × Bytes :=
  ((r.state, r.observed obs), r.buf)

theorem observed_erase (r : Receiver S E) (hdr : FrameHeader) (p : Option Payload) (next : S)
    (effects : List E) : (r.erase hdr p next effects).observed obs =
      r.observed obs ++ (p.map fun p => obs hdr p effects).toList := by
  cases p <;> simp [Receiver.observed, Receiver.erase]

section

variable (hf : Follows react obs takes advance emits) (past : Nat → Nat → UInt8)
include hf

/-- A receiver that handles a whole frame. -/
theorem Follows.erase (hnext : nextHeader r.buf = some hdr) (hlen : frameHeaderSize ≤ hdr.length) :
    ∃ r' : Receiver S E, (∀ n t, run (iterate past react) n r' = some t →
        run (iterate past react) (n + 2) r = some t) ∧
      r'.view obs = (record takes advance emits (r.state, r.observed obs)
        ⟨hdr, r.buf.take hdr.length⟩, r.buf.drop hdr.length) := by
  obtain ⟨r₁, hbuf, hlog, hstep, hfree, htaken⟩ := hf.frame past hnext
  have hobs : r₁.observed obs = r.observed obs := by
    rw [Receiver.observed, hlog, Receiver.observed]
  -- One turn for the frame itself, one more if it is handed on first.
  have hrun : ∀ r', iterate past react r₁ = some r' → ∀ n t,
      run (iterate past react) n r' = some t →
      run (iterate past react) (n + 2) r = some t := by
    intro r' hr' n t ht
    rcases hstep with rfl | hstep
    · rw [run_of_some hr']
      exact run_mono ht (by omega)
    · rwa [run_of_some hstep, run_of_some hr']
  cases hkind : takes r.state hdr.type with
  | false =>
    refine ⟨_, hrun _ (hfree hkind), ?_⟩
    rw [view, observed_erase, hobs, record, hkind, if_neg Bool.false_ne_true, ← hbuf]
    rfl
  | true =>
    obtain ⟨_, _, hiter, hsees⟩ := htaken hkind
    obtain ⟨hadvance, hemits⟩ := hsees hlen
    refine ⟨_, hrun _ hiter, ?_⟩
    rw [view, observed_erase, hobs, record, hkind, hadvance, hemits, ← hbuf]
    rfl

variable (r : Receiver S E)

theorem Follows.drain (hb : Framed r.buf) : ∃ n r', run (iterate past react) n r = some r' ∧
      r'.view obs = ((framesOf r.buf).1.foldl (record takes advance emits)
        (r.state, r.observed obs), (framesOf r.buf).2) := by
  induction hlen : r.buf.length using Nat.strongRecOn generalizing r with
  | ind k ih =>
    cases hnext : nextHeader r.buf with
    | none =>
      refine ⟨1, r, run_of_none (iterate_of_none hnext) 0, ?_⟩
      rw [show framesOf r.buf = ([], r.buf) from Framing.frames_of_none (cutFrame_of_none hnext)]
      rfl
    | some hdr =>
      have hle := hb.length_le (nextHeader_eq_some.mp hnext).1
      have hpos : hdr.length ≠ 0 := by
        have hnine : frameHeaderSize = 9 := rfl
        omega
      obtain ⟨r₁, hrun, hview⟩ := hf.erase past hnext hle
      simp only [view, Prod.mk.injEq] at hview
      obtain ⟨hrecord, hbuf⟩ := hview
      obtain ⟨n, r', hr', hview'⟩ := ih _
        (hlen ▸ cuts_cutFrame.shrinks (cutFrame_of_some hnext hpos)) r₁
        (hbuf ▸ hb.tail hnext) (by rw [hbuf])
      refine ⟨n + 2, r', hrun n r' hr', ?_⟩
      rw [hview', hrecord, hbuf, framesOf_of_some hnext hpos, foldl_cons]

/-- **Streams in pieces**: whatever the pieces are, the calls of on_data return, and the machine
over frames gives the state and what is to be seen of the calls of handlers. -/
theorem Follows.receiveAll (chunks : List Bytes) (hb : Framed (r.buf ++ chunks.flatten)) :
    ∃ n r', (∀ fuel, n ≤ fuel → Receiver.receiveAll past react fuel r chunks = some r') ∧
      r'.view obs =
        chunks.foldl (Framing.feed cutFrame (record takes advance emits)) (r.view obs) := by
  induction chunks generalizing r with
  | nil => exact ⟨0, r, fun _ _ => rfl, rfl⟩
  | cons data chunks ih =>
    rw [flatten_cons, ← append_assoc] at hb
    obtain ⟨n, r₁, hrun, hview⟩ := hf.drain past (r.append data) hb.of_append
    have hbuf : r₁.buf = (framesOf (r.buf ++ data)).2 := congrArg Prod.snd hview
    obtain ⟨m, r', hall, hview'⟩ := ih r₁ (by rw [hbuf]; exact hb.rest)
    refine ⟨max n m, r', ?_, ?_⟩
    · intro fuel hfuel
      rw [Receiver.receiveAll, show Receiver.onData past react fuel r data = some r₁ from
        run_mono hrun (by omega)]
      exact hall fuel (by omega)
    · rw [hview', hview]
      rfl

/-- The same for an owner whose buffer is empty, in terms of the frames of the whole stream. -/
theorem Follows.stream (hr : r.buf = []) (chunks : List Bytes) (hb : Framed chunks.flatten) :
    ∃ n r', (∀ fuel, n ≤ fuel → Receiver.receiveAll past react fuel r chunks = some r') ∧
      r'.observed obs = r.observed obs ++
        observations takes advance emits r.state (framesOf chunks.flatten).1 := by
  obtain ⟨n, r', hrun, hview⟩ := hf.receiveAll past r chunks (by rwa [hr])
  refine ⟨n, r', hrun, ?_⟩
  have hstart : r.view obs = ((r.state, r.observed obs), []) := by rw [view, hr]
  rw [hstart, cuts_cutFrame.feedAll_eq, foldl_record] at hview
  exact congrArg (fun v => v.1.2) hview

end

/-! ### Less to be seen -/

theorem map_observed {O' : Type} (g : O → O') (r : Receiver S E) :
    (r.observed obs).map g = r.observed fun hdr p effects => g (obs hdr p effects) := by
  rw [Receiver.observed, map_filterMap]
  congr 1
  funext e
  cases e.payload <;> rfl

theorem map_observations {O' : Type} (g : O → O') (s : S) (fs : List RawFrame) :
    (observations takes advance emits s fs).map g =
      observations takes advance (fun s f => g (emits s f)) s fs := by
  induction fs generalizing s with
  | nil => rfl
  | cons f fs ih =>
    rw [observations, map_append, ih, observations]
    cases takes s f.header.type <;> rfl

end Follows

end NyxDb.Server

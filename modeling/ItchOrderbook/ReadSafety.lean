import ItchOrderbook.Decoding
import ItchOrderbook.SessionFraming

/-!
# Reads on hostile bytes, and what the decoders take for granted

Framing checks the length of a record against its type, and that is all the
decoders need to stay in range. The side byte is asserted by three decoders and
checked by nobody, so in the default build any byte gets through.
-/

namespace Itch

open ByteFields CheckedRuns PrefixCode

universe u

/-- The message a frame is decoded to. -/
def frameMessage (f : List UInt8) : Message := .ofRecord (frameType f) (frameBody f)

theorem decodeRecord_frame {f : List UInt8} (hf : IsFrame f) {build : Build}
    (hside : build = .debug → SideOk (frameType f) (frameBody f)) :
    decodeRecord build (frameType f) (frameBody f) = .ok (frameMessage f) :=
  decodeRecord_ok hf.body_length hside

theorem decodeHeader_frame {f : List UInt8} (hf : IsFrame f) :
    decodeHeader ⟨frameBody f⟩ = .ok (.ofRecord (frameBody f)) := by
  apply decodeHeader_ok
  have hroom := specMessageLength_header (frameType f) hf.specified
  rw [hf.body_length]
  exact Nat.le_of_lt hroom

/-- A frame decodes, or stops the debug build at the side assert. -/
theorem decodeRecord_frame_cases {f : List UInt8} (hf : IsFrame f) (build : Build) :
    decodeRecord build (frameType f) (frameBody f) = .ok (frameMessage f) ∨
      build = .debug ∧
        decodeRecord build (frameType f) (frameBody f) = .error (.assertion .validSide) := by
  by_cases hside : SideOk (frameType f) (frameBody f)
  · exact Or.inl (decodeRecord_frame hf fun _ => hside)
  · cases build with
    | relWithDebInfo =>
      left
      apply decodeRecord_frame hf
      intro h
      cases h
    | debug => exact Or.inr ⟨rfl, decodeRecord_bad_side hf.body_length hside⟩

/-- In the default build parsing is a run of the handler over the messages of the frames;
so it is in the debug build when every side byte is good. -/
theorem parseAll_eq {σ : Type u} {build : Build} (handler : MessageHandler σ)
    {frames : List (List UInt8)} {rest file : List UInt8}
    (h : Parses itchCode frames rest file)
    (hside : build = .debug → ∀ f ∈ frames, SideOk (frameType f) (frameBody f)) (s : σ) :
    parseAll build handler file s =
      (run (fun s m => handler m s) s (frames.map frameMessage)).map fun s =>
        (sessionOutcome frames.length frames.flatten.length rest, s) := by
  rw [parseAll, frameAll_eq _ h]
  congr 1
  have hframes : ∀ f ∈ frames, IsFrame f := h.isWord
  clear h
  induction frames generalizing s with
  | nil => rfl
  | cons f frames ih =>
    have hdecode := decodeRecord_frame (hframes f List.mem_cons_self)
      fun hb => hside hb f List.mem_cons_self
    have hrest : ∀ t, run (deliver (dispatchRecord build handler)) t frames =
        run (fun s m => handler m s) t (frames.map frameMessage) := by
      intro t
      apply ih
      · exact fun hb g hg => hside hb g (List.mem_cons_of_mem f hg)
      · exact fun g hg => hframes g (List.mem_cons_of_mem f hg)
    simp only [List.map_cons, run, deliver, dispatchRecord, hdecode]
    cases handler (frameMessage f) s with
    | error fault => rfl
    | ok t => exact hrest t

theorem parseAll_default {σ : Type u} (handler : MessageHandler σ) {frames : List (List UInt8)}
    {rest file : List UInt8} (h : Parses itchCode frames rest file) (s : σ) :
    parseAll .relWithDebInfo handler file s =
      (run (fun s m => handler m s) s (frames.map frameMessage)).map fun s =>
        (sessionOutcome frames.length frames.flatten.length rest, s) := by
  apply parseAll_eq handler h
  intro hb
  cases hb

/-- What stops a run of dispatches is raised by the handler, or is the side assert. -/
theorem run_dispatch_fault {σ : Type u} {build : Build} (handler : MessageHandler σ)
    {frames : List (List UInt8)} (hframes : ∀ f ∈ frames, IsFrame f) {s : σ} {fault : Fault}
    (h : run (deliver (dispatchRecord build handler)) s frames = .error fault) :
    (∃ m t, handler m t = .error fault) ∨ build = .debug ∧ fault = .assertion .validSide := by
  induction frames generalizing s with
  | nil => cases h
  | cons f frames ih =>
    have hrest := fun g hg => hframes g (List.mem_cons_of_mem f hg)
    simp only [run, deliver, dispatchRecord] at h
    rcases decodeRecord_frame_cases (hframes f List.mem_cons_self) build with hok | ⟨hb, hbad⟩
    · rw [hok] at h
      cases hcall : handler (frameMessage f) s with
      | error e =>
        simp only [hcall, Except.error.injEq] at h
        subst h
        exact Or.inl ⟨_, _, hcall⟩
      | ok t =>
        simp only [hcall] at h
        exact ih hrest h
    · simp only [hbad, Except.error.injEq] at h
      exact Or.inr ⟨hb, h.symm⟩

/-- Nothing in framing or decoding faults on any buffer. Every pass of the loop makes its
two prefix reads, its subtractions, its subspan and its type read in range. Whatever stops
parsing was raised by the handler or is the side assert of the debug build: never a read
out of range, never the record-length assert. The header of every record can be read. -/
theorem parseAll_in_range (file : List UInt8) :
    (∀ offset, offset < file.length → ∃ framed, frameAt file offset = .ok framed) ∧
    (∀ (build : Build) {σ : Type u} (handler : MessageHandler σ) (s : σ) (fault : Fault),
      parseAll build handler file s = .error fault →
        (∃ m t, handler m t = .error fault) ∨
          build = .debug ∧ fault = .assertion .validSide) ∧
    ∃ frames rest, Parses itchCode frames rest file ∧
      (∀ (build : Build) {σ : Type u} (handler : MessageHandler σ) (s : σ),
        parseAll build handler file s =
          (run (fun s f => dispatchRecord build handler (frameType f) (frameBody f) s) s
            frames).map fun s =>
              (sessionOutcome frames.length frames.flatten.length rest, s)) ∧
      ∀ f ∈ frames,
        (frameBody f).length = (specMessageLength (frameType f)).toNat ∧
        (∃ m, decodeRecord .relWithDebInfo (frameType f) (frameBody f) = .ok m) ∧
        ((∃ m, decodeRecord .debug (frameType f) (frameBody f) = .ok m) ∨
          decodeRecord .debug (frameType f) (frameBody f) = .error (.assertion .validSide)) ∧
        ∃ header, decodeHeader ⟨frameBody f⟩ = .ok header := by
  obtain ⟨frames, rest, h⟩ := parses_exists (C := itchCode) file
  have hrun : ∀ (build : Build) {σ : Type u} (handler : MessageHandler σ) (s : σ),
      parseAll build handler file s =
        (run (deliver (dispatchRecord build handler)) s frames).map fun s =>
          (sessionOutcome frames.length frames.flatten.length rest, s) :=
    fun build _ handler s => frameAll_eq (dispatchRecord build handler) h s
  refine ⟨fun offset ho => ⟨_, frameAt_eq ho⟩, ?_, frames, rest, h, hrun, ?_⟩
  · intro build σ handler s fault hfault
    rw [hrun] at hfault
    cases hr : run (deliver (dispatchRecord build handler)) s frames with
    | ok t =>
      rw [hr] at hfault
      cases hfault
    | error e =>
      rw [hr] at hfault
      cases hfault
      exact run_dispatch_fault handler h.isWord hr
  · intro f hmem
    have hf : IsFrame f := h.isWord f hmem
    refine ⟨hf.body_length, ?_, ?_, _, decodeHeader_frame hf⟩
    · rcases decodeRecord_frame_cases hf .relWithDebInfo with hok | ⟨hb, _⟩
      · exact ⟨_, hok⟩
      · cases hb
    · rcases decodeRecord_frame_cases hf .debug with hok | ⟨_, hbad⟩
      · exact Or.inl ⟨_, hok⟩
      · exact Or.inr hbad

section Sides

/-- The side a message carries, when it carries one. -/
def Message.side? : Message → Option Side
  | .addOrder message => some message.side
  | .addOrderWithMpid message => some message.order.side
  | .tradeNonCross message => some message.side
  | _ => none

/-- A handler that keeps what it is given, in order. -/
def recordMessages : MessageHandler (List Message) := fun m delivered => .ok (delivered ++ [m])

/-- Parsing is complete exactly on buffers of frames that meet every assert of their decoder,
and whatever is delivered on the way has a side of the enumeration. -/
def AcceptsOnlyDecodable (file : List UInt8) : Prop :=
  ∃ outcome delivered,
    parseAll .relWithDebInfo recordMessages file [] = .ok (outcome, delivered) ∧
    (outcome.complete = true ↔ ∃ frames : List (List UInt8), file = frames.flatten ∧
      ∀ f ∈ frames, IsFrame f ∧ SideOk (frameType f) (frameBody f)) ∧
    ∀ m ∈ delivered, ∀ side, m.side? = some side → side = Side.buy ∨ side = Side.sell

theorem isValidSide_iff (value : UInt8) :
    isValidSide value = true ↔ (⟨value⟩ : Side) = Side.buy ∨ (⟨value⟩ : Side) = Side.sell := by
  simp [isValidSide, Side.buy, Side.sell]

/-- A decoded message carries a side exactly when its decoder asserts on one. -/
theorem side?_ofRecord (type : UInt8) (record : List UInt8) :
    (Message.ofRecord type record).side? =
      if HasSide type then some ⟨charAt record 19⟩ else none := by
  by_cases hA : type = 'A'.toUInt8
  · subst hA
    rfl
  by_cases hF : type = 'F'.toUInt8
  · subst hF
    rfl
  by_cases hP : type = 'P'.toUInt8
  · subst hP
    rfl
  have hno : ¬ HasSide type := by simp [HasSide, hA, hF, hP]
  rw [if_neg hno, Message.ofRecord, if_neg hA]
  repeat' split
  all_goals rfl

theorem sideOk_iff (type : UInt8) (record : List UInt8) :
    SideOk type record ↔ ∀ side, (Message.ofRecord type record).side? = some side →
      side = Side.buy ∨ side = Side.sell := by
  rw [side?_ofRecord, SideOk, isValidSide_iff]
  by_cases htype : HasSide type
  · simp [htype]
  · simp [htype]

theorem run_recordMessages (delivered ms : List Message) :
    run (fun s m => recordMessages m s) delivered ms = .ok (delivered ++ ms) := by
  induction ms generalizing delivered with
  | nil => simp [run]
  | cons m ms ih =>
    have hstep : recordMessages m delivered = .ok (delivered ++ [m]) := rfl
    rw [run_cons_ok hstep, ih, List.append_assoc]
    rfl

theorem sessionOutcome_complete (messages consumed : ℕ) (rest : List UInt8) :
    (sessionOutcome messages consumed rest).complete = true ↔ rest = [] := by
  by_cases hrest : rest = []
  · simp [sessionOutcome, hrest, FrameOutcome.complete]
  · simp [sessionOutcome, hrest, FrameOutcome.complete]

/-- The default build delivers the messages of all frames, whatever their sides. -/
theorem parseAll_recordMessages {frames : List (List UInt8)} {rest file : List UInt8}
    (h : Parses itchCode frames rest file) :
    parseAll .relWithDebInfo recordMessages file [] =
      .ok (sessionOutcome frames.length frames.flatten.length rest, frames.map frameMessage) := by
  rw [parseAll_default recordMessages h, run_recordMessages, List.nil_append]
  rfl

theorem AcceptsOnlyDecodable.sideOk {file : List UInt8} (haccepts : AcceptsOnlyDecodable file)
    {frames : List (List UInt8)} {rest : List UInt8} (h : Parses itchCode frames rest file)
    {f : List UInt8} (hf : f ∈ frames) : SideOk (frameType f) (frameBody f) := by
  obtain ⟨outcome, delivered, hrun, _, hsides⟩ := haccepts
  rw [parseAll_recordMessages h] at hrun
  cases hrun
  exact (sideOk_iff _ _).mpr (hsides (frameMessage f) (List.mem_map_of_mem hf))

/-- Parsing accepts only what its decoders can decode exactly when every 'A', 'F' and 'P'
record among the frames of the buffer has side byte 'B' or 'S'. -/
theorem acceptsOnlyDecodable_iff (file : List UInt8) :
    AcceptsOnlyDecodable file ↔ ∀ frames rest, Parses itchCode frames rest file →
      ∀ f ∈ frames, SideOk (frameType f) (frameBody f) := by
  constructor
  · exact fun haccepts frames rest h f hf => haccepts.sideOk h hf
  · intro hsides
    obtain ⟨frames, rest, h⟩ := parses_exists (C := itchCode) file
    refine ⟨_, _, parseAll_recordMessages h, ?_, ?_⟩
    · rw [sessionOutcome_complete]
      constructor
      · rintro rfl
        refine ⟨frames, by rw [h.eq, List.append_nil], fun f hf => ?_⟩
        exact ⟨h.isWord f hf, hsides frames [] h f hf⟩
      · rintro ⟨frames', rfl, hframes'⟩
        exact (h.unique (parses_flatten fun f hf => (hframes' f hf).1)).2
    · intro m hm
      obtain ⟨f, hf, rfl⟩ := List.mem_map.mp hm
      exact (sideOk_iff _ _).mp (hsides frames rest h f hf)

/-- A framed 'A' record with side byte 'X'. -/
def badSideAdd : List UInt8 :=
  [0, 36, 'A'.toUInt8, 0, 7, 0, 0, 0, 0, 0, 0, 0, 1, 0, 0, 0, 0, 0, 0, 0, 1, 'X'.toUInt8,
   0, 0, 0, 100, 32, 32, 32, 32, 32, 32, 32, 32, 0, 0, 0, 9]

/-- It is delivered as an add, with a side that is neither buy nor sell. -/
theorem badSideAdd_accepted : ¬ AcceptsOnlyDecodable badSideAdd := by
  intro haccepts
  have hframe : IsFrame badSideAdd :=
    ⟨_, _, _, _, rfl, by decide, by decide +kernel⟩
  have hparses : Parses itchCode [badSideAdd] [] badSideAdd :=
    parses_cons hframe (parses_stuck stuck_nil)
  exact absurd (haccepts.sideOk hparses (List.mem_singleton.mpr rfl)) (by decide +kernel)

end Sides

end Itch

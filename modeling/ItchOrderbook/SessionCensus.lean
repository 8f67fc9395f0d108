import ItchOrderbook.ReadSafety
import ItchOrderbook.ReferenceFraming
import Mathlib.Algebra.BigOperators.Fin

/-!
# The session census and its reference

A census counts the messages of a session by type and watches their timestamps.
The handler sees a record through one of eleven callbacks, and every one of them
comes down to the header of the record. The Python census counts the raw records.
-/

namespace Itch

open ByteFields CheckedRuns PrefixCode

structure SessionCensus where
  counts : Vector ℕ 256 := Vector.replicate 256 0
  total : ℕ := 0
  backwardsTimestamps : ℕ := 0
  firstTimestampNs : UInt64 := 0
  lastTimestampNs : UInt64 := 0
  systemEvents : List UInt8 := []

namespace SessionCensus

def count (census : SessionCensus) (type : UInt8) : ℕ := census.counts.get type.toFin

theorem get_toFin (counts : Vector ℕ 256) (type : UInt8) (h : type.toNat < 256) :
    counts.get type.toFin = counts[type.toNat] := rfl

def note (census : SessionCensus) (header : MessageHeader) : SessionCensus :=
  let counts := census.counts.set header.type.toNat (census.count header.type + 1)
    header.type.toNat_lt
  { census with
    counts
    firstTimestampNs := if census.total = 0 then header.timestampNs else census.firstTimestampNs
    backwardsTimestamps :=
      if census.total ≠ 0 ∧ header.timestampNs < census.lastTimestampNs then
        census.backwardsTimestamps + 1
      else census.backwardsTimestamps
    lastTimestampNs := header.timestampNs
    total := census.total + 1 }

/-- The overload set of the census. -/
def on : MessageHandler SessionCensus
  | .systemEvent message, census =>
    let census := census.note message.header
    .ok { census with systemEvents := census.systemEvents ++ [message.eventCode] }
  | .addOrder message, census => .ok (census.note message.header)
  | .addOrderWithMpid message, census => .ok (census.note message.order.header)
  | .orderExecuted message, census => .ok (census.note message.header)
  | .orderExecutedWithPrice message, census => .ok (census.note message.executed.header)
  | .orderCancel message, census => .ok (census.note message.header)
  | .orderDelete message, census => .ok (census.note message.header)
  | .orderReplace message, census => .ok (census.note message.header)
  | .tradeNonCross message, census => .ok (census.note message.header)
  | .stockDirectory message, census => .ok (census.note message.header)
  | .other _ record, census => do
    let header ← decodeHeader ⟨record⟩
    return census.note header

/-- What a record adds, whichever callback it arrives through. -/
def seen (census : SessionCensus) (record : List UInt8) : SessionCensus :=
  let census := census.note (.ofRecord record)
  if charAt record 0 = 'S'.toUInt8 then
    { census with systemEvents := census.systemEvents ++ [charAt record 11] }
  else census

section Seen

variable (census : SessionCensus) (record : List UInt8)

theorem seen_total : (census.seen record).total = census.total + 1 := by
  rw [seen]
  split <;> rfl

theorem seen_first : (census.seen record).firstTimestampNs =
    if census.total = 0 then u48At record 5 else census.firstTimestampNs := by
  rw [seen]
  split <;> rfl

theorem seen_last : (census.seen record).lastTimestampNs = u48At record 5 := by
  rw [seen]
  split <;> rfl

theorem seen_backwards : (census.seen record).backwardsTimestamps =
    if census.total ≠ 0 ∧ u48At record 5 < census.lastTimestampNs then
      census.backwardsTimestamps + 1
    else census.backwardsTimestamps := by
  rw [seen]
  split <;> rfl

theorem seen_systemEvents : (census.seen record).systemEvents =
    census.systemEvents ++
      if charAt record 0 = 'S'.toUInt8 then [charAt record 11] else [] := by
  rw [seen]
  split
  · rfl
  · exact (List.append_nil _).symm

theorem seen_count (type : UInt8) : (census.seen record).count type =
    census.count type + if charAt record 0 = type then 1 else 0 := by
  have hnote : (census.seen record).count type =
      (census.note (.ofRecord record)).count type := by
    rw [seen]
    split <;> rfl
  rw [hnote]
  simp only [count, note, MessageHeader.ofRecord, get_toFin _ _ (UInt8.toNat_lt _),
    Vector.getElem_set]
  by_cases htype : charAt record 0 = type
  · subst htype
    simp
  · have hne : (charAt record 0).toNat ≠ type.toNat := fun h => htype (UInt8.toNat_inj.mp h)
    simp [htype, hne]

end Seen

theorem on_frame {f : List UInt8} (hf : IsFrame f) (census : SessionCensus) :
    on (frameMessage f) census = .ok (census.seen (frameBody f)) := by
  have hheader := decodeHeader_frame hf
  rw [seen, hf.body_type, frameMessage]
  by_cases hS : frameType f = 'S'.toUInt8
  · rw [if_pos hS, hS]
    rfl
  · rw [if_neg hS, Message.ofRecord]
    repeat' split
    all_goals first
      | rfl
      | exact absurd ‹_› hS
      | simp only [on, hheader, ok_bind]; rfl

end SessionCensus

/-- How often a sequence of timestamps goes down from one element to the next. -/
def descents : List UInt64 → ℕ
  | a :: b :: rest => (if b < a then 1 else 0) + descents (b :: rest)
  | _ => 0

theorem descents_append (l : List UInt64) (y x : UInt64) :
    descents (l ++ [y] ++ [x]) = descents (l ++ [y]) + if x < y then 1 else 0 := by
  induction l with
  | nil => simp [descents]
  | cons a l ih =>
    cases l with
    | nil => simp [descents]
    | cons b l =>
      simp only [List.cons_append, descents] at ih ⊢
      rw [ih, add_assoc]

/-- No descent anywhere means the sequence never decreases. -/
theorem descents_eq_zero (l : List UInt64) : descents l = 0 ↔ l.Pairwise (· ≤ ·) := by
  rw [← List.isChain_iff_pairwise]
  induction l with
  | nil => simp [descents]
  | cons a l ih =>
    cases l with
    | nil => simp [descents]
    | cons b l =>
      rw [descents, Nat.add_eq_zero_iff, ih, List.isChain_cons_cons]
      simp

/-- The 48-bit timestamp of a record. -/
def timestampOf (record : List UInt8) : UInt64 := u48At record 5

/-- A census that has seen exactly these records. -/
structure Summarises (census : SessionCensus) (records : List (List UInt8)) : Prop where
  total : census.total = records.length
  counts : ∀ type, census.count type = records.countP fun r => charAt r 0 = type
  systemEvents : census.systemEvents =
    (records.filter fun r => charAt r 0 = 'S'.toUInt8).map fun r => charAt r 11
  backwards : census.backwardsTimestamps = descents (records.map timestampOf)
  first : ∀ r ∈ records.head?, census.firstTimestampNs = timestampOf r
  last : ∀ r ∈ records.getLast?, census.lastTimestampNs = timestampOf r

theorem summarises_fresh : Summarises {} [] where
  total := rfl
  counts := by
    intro type
    simp [SessionCensus.count, SessionCensus.get_toFin _ _ type.toNat_lt]
  systemEvents := rfl
  backwards := rfl
  first := by simp
  last := by simp

theorem Summarises.seen {census : SessionCensus} {records : List (List UInt8)}
    (h : Summarises census records) (r : List UInt8) :
    Summarises (census.seen r) (records ++ [r]) where
  total := by
    rw [SessionCensus.seen_total, h.total, List.length_append, List.length_singleton]
  counts := by
    intro type
    rw [SessionCensus.seen_count, h.counts, List.countP_append, List.countP_singleton]
    simp
  systemEvents := by
    rw [SessionCensus.seen_systemEvents, h.systemEvents, List.filter_append, List.map_append]
    congr 1
    by_cases hS : charAt r 0 = 'S'.toUInt8
    · simp [hS]
    · simp [hS]
  backwards := by
    rw [SessionCensus.seen_backwards, h.total, h.backwards]
    rcases List.eq_nil_or_concat records with rfl | ⟨before, y, rfl⟩
    · simp [descents]
    · have hlast : census.lastTimestampNs = timestampOf y := h.last y (by simp)
      have hsome : (before.concat y).length ≠ 0 := by simp
      simp only [List.concat_eq_append] at hsome ⊢
      simp only [hlast, List.map_append, List.map_singleton]
      rw [descents_append]
      simp only [hsome, ne_eq, not_false_eq_true, true_and]
      change (if timestampOf r < timestampOf y then _ else _) = _
      split <;> simp
  first := by
    intro x hx
    rw [SessionCensus.seen_first, h.total]
    cases records with
    | nil =>
      obtain rfl : r = x := by simpa using hx
      rfl
    | cons y records =>
      obtain rfl : y = x := by simpa using hx
      exact h.first y rfl
  last := by
    intro x hx
    obtain rfl : r = x := by simpa using hx
    exact SessionCensus.seen_last census r

theorem sum_counts {census : SessionCensus} {records : List (List UInt8)}
    (h : Summarises census records) :
    ∑ i : Fin 256, census.count (UInt8.ofFin i) = census.total := by
  rw [h.total, Finset.sum_congr rfl fun i _ => h.counts (UInt8.ofFin i)]
  clear h
  induction records with
  | nil => simp
  | cons r records ih =>
    have hone : ∑ i : Fin 256, (if charAt r 0 = UInt8.ofFin i then 1 else 0) = 1 := by
      have hiff : ∀ i : Fin 256, charAt r 0 = UInt8.ofFin i ↔ (charAt r 0).toFin = i :=
        fun i => ⟨fun heq => by rw [heq, UInt8.toFin_ofFin],
          fun heq => by rw [← heq, UInt8.ofFin_toFin]⟩
      simp only [hiff, Finset.sum_ite_eq, Finset.mem_univ, if_true]
    simp only [List.countP_cons, Finset.sum_add_distrib, ih, decide_eq_true_eq, hone,
      List.length_cons]

/-- The state of `census`; the counter is keyed by the type before it is decoded, which loses
nothing on the types of the dictionary. -/
structure ReferenceCensus where
  counts : List UInt8 → ℕ := fun _ => 0
  systemEvents : List Char := []
  total : ℕ := 0

namespace ReferenceCensus

def countRecord (messageType record : List UInt8) (census : ReferenceCensus) :
    Except Raised ReferenceCensus := do
  let counts := Function.update census.counts messageType (census.counts messageType + 1)
  let total := census.total + 1
  if messageType = ['S'.toUInt8] then
    let code ← pyIndex record 11
    return { counts, total, systemEvents := census.systemEvents ++ [chr code] }
  return { census with counts, total }

def reached (limit : Option ℤ) (census : ReferenceCensus) : Bool :=
  match limit with
  | none => false
  | some limit => limit ≤ census.total

end ReferenceCensus

/-- The Python `census`: its counts, and where and why it stopped. -/
def referenceCensus (session : List UInt8) (limit : Option ℤ) :
    Except Raised (ReferenceCensus × ℕ × Option ReferenceError) :=
  referenceLoop ReferenceCensus.countRecord (ReferenceCensus.reached limit) session 0 {}

/-- The reference has counted exactly these records. -/
structure ReferenceSummarises (census : ReferenceCensus) (records : List (List UInt8)) : Prop where
  total : census.total = records.length
  counts : ∀ type, census.counts [type] = records.countP fun r => charAt r 0 = type
  keys : ∀ key, census.counts key ≠ 0 → ∃ type, key = [type]
  systemEvents : census.systemEvents =
    (records.filter fun r => charAt r 0 = 'S'.toUInt8).map fun r => chr (charAt r 11)

/-- What a record adds to the reference, past its reads. -/
def ReferenceCensus.counted (census : ReferenceCensus) (type : UInt8) (record : List UInt8) :
    ReferenceCensus where
  counts := Function.update census.counts [type] (census.counts [type] + 1)
  total := census.total + 1
  systemEvents := census.systemEvents ++
    if type = 'S'.toUInt8 then [chr (charAt record 11)] else []

/-- Counting a frame never raises. -/
theorem countRecord_frame {f : List UInt8} (hf : IsFrame f) (census : ReferenceCensus) :
    ReferenceCensus.countRecord [frameType f] (frameBody f) census =
      .ok (census.counted (frameType f) (frameBody f)) := by
  have hread := pyIndex_ok hf.body_room
  by_cases hS : frameType f = 'S'.toUInt8
  · simp only [ReferenceCensus.countRecord, ReferenceCensus.counted, hS, if_true]
    rw [hread]
    rfl
  · have hne : [frameType f] ≠ ['S'.toUInt8] := fun h => hS (List.singleton_inj.mp h)
    simp only [ReferenceCensus.countRecord, ReferenceCensus.counted, if_neg hS, if_neg hne,
      List.append_nil]
    rfl

theorem ReferenceSummarises.counted {census : ReferenceCensus} {records : List (List UInt8)}
    (h : ReferenceSummarises census records) {type : UInt8} {r : List UInt8}
    (htype : charAt r 0 = type) :
    ReferenceSummarises (census.counted type r) (records ++ [r]) where
  total := by
    rw [ReferenceCensus.counted, h.total, List.length_append, List.length_singleton]
  counts := by
    intro t
    rw [ReferenceCensus.counted, List.countP_append, ← h.counts, List.countP_singleton, htype]
    by_cases heq : type = t
    · simp [heq]
    · have hne : t ≠ type := fun h => heq h.symm
      simp [Function.update, heq, hne]
  keys := by
    intro key hkey
    by_cases heq : key = [type]
    · exact ⟨type, heq⟩
    · have hsame : (census.counted type r).counts key = census.counts key :=
        Function.update_of_ne heq _ _
      exact h.keys key (hsame ▸ hkey)
  systemEvents := by
    rw [ReferenceCensus.counted, h.systemEvents, List.filter_append, List.map_append]
    by_cases hS : type = 'S'.toUInt8
    · simp [hS, htype]
    · simp [hS, htype]

/-- The records handed to a callback, kept in order. -/
def keepRecord (_ : UInt8) (record : List UInt8) (records : List (List UInt8)) :
    Except Fault (List (List UInt8)) :=
  .ok (records ++ [record])

theorem run_keepRecord (frames : List (List UInt8)) :
    run (deliver keepRecord) [] frames = .ok (frames.map frameBody) := by
  have hstep : ∀ records seen f, f ∈ frames → records = seen.map frameBody →
      ∃ records', deliver keepRecord records f = .ok records' ∧
        records' = (seen ++ [f]).map frameBody := by
    rintro _ seen f _ rfl
    exact ⟨_, rfl, by simp⟩
  obtain ⟨records, hrun, rfl⟩ := run_history hstep (List.map_nil (f := frameBody)).symm
  exact hrun

/-- The handler over the frames of a session. -/
theorem run_census {frames : List (List UInt8)} (hframes : ∀ f ∈ frames, IsFrame f) :
    ∃ census, run (fun s m => SessionCensus.on m s) {} (frames.map frameMessage) = .ok census ∧
      Summarises census (frames.map frameBody) := by
  have hstep : ∀ census seen f, f ∈ frames → Summarises census (seen.map frameBody) →
      ∃ census', SessionCensus.on (frameMessage f) census = .ok census' ∧
        Summarises census' ((seen ++ [f]).map frameBody) := by
    intro census seen f hf h
    refine ⟨_, SessionCensus.on_frame (hframes f hf) census, ?_⟩
    simpa using h.seen (frameBody f)
  have hfresh : Summarises {} ([].map frameBody) := summarises_fresh
  rw [run_map]
  exact run_history hstep hfresh

/-- The reference over the frames of a session. -/
theorem run_reference {frames : List (List UInt8)} (hframes : ∀ f ∈ frames, IsFrame f) :
    ∃ census, run (fun s f => ReferenceCensus.countRecord [frameType f] (frameBody f) s) {}
        frames = .ok census ∧ ReferenceSummarises census (frames.map frameBody) := by
  have hstep : ∀ census seen f, f ∈ frames → ReferenceSummarises census (seen.map frameBody) →
      ∃ census', ReferenceCensus.countRecord [frameType f] (frameBody f) census = .ok census' ∧
        ReferenceSummarises census' ((seen ++ [f]).map frameBody) := by
    intro census seen f hf h
    refine ⟨_, countRecord_frame (hframes f hf) census, ?_⟩
    simpa using h.counted (hframes f hf).body_type
  have hfresh : ReferenceSummarises {} ([].map frameBody) :=
    ⟨rfl, fun _ => rfl, fun _ hkey => absurd rfl hkey, rfl⟩
  exact run_history hstep hfresh

/-- The census of a session is that of its delivered records, and the reference, run on the
same bytes without a limit, counts the same and stops at the same place. -/
theorem census_faithful (file : List UInt8) :
    ∃ outcome records census reference error,
      frameAll keepRecord file [] = .ok (outcome, records) ∧
      parseAll .relWithDebInfo SessionCensus.on file {} = .ok (outcome, census) ∧
      referenceCensus file none = .ok (reference, outcome.bytesConsumed, error) ∧
      Summarises census records ∧
      census.total = outcome.messages ∧
      ∑ i : Fin 256, census.count (UInt8.ofFin i) = census.total ∧
      (census.backwardsTimestamps = 0 ↔ (records.map timestampOf).Pairwise (· ≤ ·)) ∧
      (∀ type, reference.counts [type] = census.count type) ∧
      (∀ key, reference.counts key ≠ 0 → ∃ type, key = [type]) ∧
      reference.systemEvents = census.systemEvents.map chr ∧
      reference.total = census.total ∧
      (error.isSome ↔ outcome.error.isSome) := by
  obtain ⟨frames, rest, h⟩ := parses_exists (C := itchCode) file
  obtain ⟨census, hcensus, hsum⟩ := run_census h.isWord
  obtain ⟨reference, hreference, href⟩ := run_reference h.isWord
  obtain ⟨error, hnone, _, hloop⟩ := referenceLoop_eq ReferenceCensus.countRecord h 0 {}
  have herror : (sessionOutcome frames.length frames.flatten.length rest).error.isSome ↔
      rest ≠ [] := by
    by_cases hrest : rest = []
    · simp [sessionOutcome, hrest]
    · simp [sessionOutcome, hrest]
  have hconsumed : (sessionOutcome frames.length frames.flatten.length rest).bytesConsumed =
      frames.flatten.length := by
    by_cases hrest : rest = []
    · simp [sessionOutcome, hrest]
    · simp [sessionOutcome, hrest]
  have hmessages : (sessionOutcome frames.length frames.flatten.length rest).messages =
      frames.length := by
    by_cases hrest : rest = []
    · simp [sessionOutcome, hrest]
    · simp [sessionOutcome, hrest]
  refine ⟨sessionOutcome frames.length frames.flatten.length rest, frames.map frameBody, census,
    reference, error, ?_, ?_, ?_, hsum, ?_, sum_counts hsum, ?_, ?_, href.keys, ?_, ?_, ?_⟩
  · rw [frameAll_eq keepRecord h, run_keepRecord]
    rfl
  · rw [parseAll_default SessionCensus.on h, hcensus]
    rfl
  · rw [hreference, Nat.zero_add] at hloop
    rw [hconsumed]
    exact hloop
  · rw [hmessages, hsum.total, List.length_map]
  · rw [hsum.backwards]
    exact descents_eq_zero _
  · intro type
    rw [href.counts, hsum.counts]
  · rw [href.systemEvents, hsum.systemEvents, List.map_map]
    rfl
  · rw [href.total, hsum.total]
  · rw [herror, ← not_iff_not, not_not, ← hnone, Option.not_isSome_iff_eq_none]

end Itch

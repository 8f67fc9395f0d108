import ItchOrderbook.FramingResumption
import ItchOrderbook.SessionCensus

/-!
# A census taken in pieces

The censuses of two stretches of a session determine that of the whole, the pair
of timestamps at the seam included. A session can be counted piece by piece, in
any order, and the results merged, wherever it was split.
-/

namespace Itch

open ByteFields CheckedRuns PrefixCode

namespace SessionCensus

/-- The census of one stretch and then another. -/
def merge (first second : SessionCensus) : SessionCensus where
  counts := Vector.zipWith (· + ·) first.counts second.counts
  total := first.total + second.total
  backwardsTimestamps := first.backwardsTimestamps + second.backwardsTimestamps +
    if first.total ≠ 0 ∧ second.total ≠ 0 ∧ second.firstTimestampNs < first.lastTimestampNs then 1
    else 0
  firstTimestampNs :=
    if first.total = 0 ∧ second.total ≠ 0 then second.firstTimestampNs else first.firstTimestampNs
  lastTimestampNs := if second.total = 0 then first.lastTimestampNs else second.lastTimestampNs
  systemEvents := first.systemEvents ++ second.systemEvents

theorem merge_fresh (first : SessionCensus) : first.merge {} = first := by
  obtain ⟨counts, total, backwards, firstTime, lastTime, events⟩ := first
  rw [merge, SessionCensus.mk.injEq]
  refine ⟨?_, rfl, ?_, ?_, rfl, List.append_nil events⟩
  · ext i hi
    simp
  · simp
  · simp

/-- One more in the second stretch is one more in the whole. -/
theorem merge_counts (xs ys : Vector ℕ 256) {i : ℕ} (hi : i < 256) :
    Vector.zipWith (· + ·) xs (ys.set i (ys[i] + 1) hi) =
      (Vector.zipWith (· + ·) xs ys).set i ((Vector.zipWith (· + ·) xs ys)[i] + 1) hi := by
  ext j hj
  by_cases hij : i = j
  · subst hij
    simp [Nat.add_assoc]
  · simp [hij]

theorem merge_note (first second : SessionCensus) (header : MessageHeader) :
    first.merge (second.note header) = (first.merge second).note header := by
  rw [merge, note, merge, note, SessionCensus.mk.injEq]
  refine ⟨merge_counts _ _ _, (Nat.add_assoc _ _ _).symm, ?_, ?_, rfl, rfl⟩
  · by_cases hsecond : second.total = 0
    · -- the seam: the header is the first of the second stretch
      simp only [hsecond, ne_eq, not_true_eq_false, false_and, and_false, if_false, if_true,
        Nat.succ_ne_zero, not_false_eq_true, true_and, Nat.add_zero]
      split <;> omega
    · have hwhole : ¬first.total + second.total = 0 := by omega
      simp only [hsecond, hwhole, ne_eq, not_false_eq_true, true_and, if_false, Nat.succ_ne_zero]
      split <;> omega
  · by_cases hsecond : second.total = 0
    · simp [hsecond]
    · simp [hsecond]

theorem merge_seen (first second : SessionCensus) (record : List UInt8) :
    first.merge (second.seen record) = (first.merge second).seen record := by
  rw [seen, seen, ← merge_note]
  split
  · rw [merge, merge, List.append_assoc]
  · rfl

/-- A census begun on one stretch and continued on the frames of another. -/
theorem run_merge {frames : List (List UInt8)} (hframes : ∀ f ∈ frames, IsFrame f)
    (first second : SessionCensus) {census : SessionCensus}
    (h : run (fun s m => on m s) second (frames.map frameMessage) = .ok census) :
    run (fun s m => on m s) (first.merge second) (frames.map frameMessage) =
      .ok (first.merge census) := by
  induction frames generalizing second with
  | nil =>
    obtain rfl := Except.ok.inj h
    rfl
  | cons f frames ih =>
    have hf := on_frame (hframes f List.mem_cons_self)
    rw [List.map_cons, run_cons_ok (hf second)] at h
    rw [List.map_cons, run_cons_ok (hf (first.merge second)), ← merge_seen]
    exact ih (fun g hg => hframes g (List.mem_cons_of_mem f hg)) _ h

end SessionCensus

/-- Wherever a session is split, the census of the whole is that of the first part merged with
that of what the first part left over and the second part, and the outcomes add up. Where the first
part breaks a rule that more bytes cannot mend, its census is that of the whole. -/
theorem census_in_pieces (a b : List UInt8) :
    ∃ outcome census,
      parseAll .relWithDebInfo SessionCensus.on a {} = .ok (outcome, census) ∧
      (outcome.resumable = true → ∃ outcome' census',
        parseAll .relWithDebInfo SessionCensus.on (a.drop outcome.bytesConsumed ++ b) {} =
          .ok (outcome', census') ∧
        parseAll .relWithDebInfo SessionCensus.on (a ++ b) {} =
          .ok (outcome.followedBy outcome', census.merge census')) ∧
      (outcome.resumable = false →
        parseAll .relWithDebInfo SessionCensus.on (a ++ b) {} = .ok (outcome, census)) := by
  obtain ⟨frames, rest, h⟩ := parses_exists (C := itchCode) a
  obtain ⟨census, hrun, -⟩ := run_census h.isWord
  refine ⟨sessionOutcome frames.length frames.flatten.length rest, census, ?_, fun _ => ?_,
    fun hhalted => ?_⟩
  · rw [parseAll_default _ h, hrun]
    rfl
  · obtain ⟨frames', rest', h'⟩ := parses_exists (C := itchCode) (rest ++ b)
    obtain ⟨census', hrun', -⟩ := run_census h'.isWord
    have hwhole := h.append h'
    rw [sessionOutcome_bytesConsumed, drop_consumed h]
    refine ⟨sessionOutcome frames'.length frames'.flatten.length rest', census', ?_, ?_⟩
    · rw [parseAll_default _ h', hrun']
      rfl
    · have hmerged := SessionCensus.run_merge h'.isWord census {} hrun'
      rw [SessionCensus.merge_fresh] at hmerged
      rw [parseAll_default _ hwhole, List.map_append, run_append_ok hrun, hmerged,
        sessionOutcome_followedBy, List.length_append, List.flatten_append, List.length_append]
      rfl
  · have hsame : parseAll .relWithDebInfo SessionCensus.on (a ++ b) {} =
        parseAll .relWithDebInfo SessionCensus.on a {} :=
      (delivers_halted h hhalted b _ _ _).trans (delivers_of_parses h _ _ _).symm
    rw [hsame, parseAll_default _ h, hrun]
    rfl

end Itch

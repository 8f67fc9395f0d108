import ItchOrderbook.ReferenceReplay

/-!
# What the book script can raise

On a record of its specified length the script reads nothing short, whatever the
bytes are. The one thing that can go wrong is a level that its dictionary no longer
has. Until then the script resolves its symbol by the first announcement.
-/

namespace Itch

open ByteFields CheckedRuns PrefixCode

/-- A call on the book: it can raise a `KeyError`, and it leaves the locate alone. -/
def ReferenceBook.Confined (book : ReferenceBook) (call : Except Raised ReferenceBook) : Prop :=
  Ends (fun book' => book'.locate = book.locate) (fun raised => raised = .keyError) call

namespace ReferenceBook

variable (book : ReferenceBook)

theorem reduceOrRemove_confined (reference : ℕ) (shares : ℤ) (removeAll : Bool) :
    book.Confined (book.reduceOrRemove reference shares removeAll) := by
  rw [reduceOrRemove]
  split
  · exact rfl
  · dsimp only
    split
    · exact rfl
    · exact locate_withLevels book _ _

theorem apply_confined (a : BookAction) : book.Confined (book.apply a) := by
  have hreduce := book.reduceOrRemove_confined
  cases a with
  | add side reference price shares => exact book.locate_insert _ _ _ _
  | execute reference shares => exact (hreduce _ _ _).bind fun _ h => h
  | cancel reference shares => exact (hreduce _ _ _).bind fun _ h => h
  | delete reference => exact (hreduce _ _ _).bind fun _ h => h
  | trade => exact rfl
  | replace original new price shares =>
    rw [apply, replace]
    split
    · exact rfl
    · exact (hreduce _ _ _).bind fun removed h => (removed.locate_insert _ _ _ _).trans h

/-- `_apply` on a record of its specified length, whatever the side byte. -/
theorem applyRecord_confined {type : UInt8} {record : List UInt8}
    (h : record.length = (specMessageLength type).toNat) :
    book.Confined (book.applyRecord [type] record) := by
  by_cases hadd : type = 'A'.toUInt8 ∨ type = 'F'.toUInt8
  · have hlen : 36 ≤ record.length := by
      rcases hadd with rfl | rfl
      · exact (length_of_entry 'A' 36 (by decide) h).ge
      · exact (by decide : 36 ≤ 40).trans (length_of_entry 'F' 40 (by decide) h).ge
    have hread : 19 < record.length := by omega
    have hlist : [type] = ['A'.toUInt8] ∨ [type] = ['F'.toUInt8] := by
      simpa only [List.singleton_inj] using hadd
    rw [applyRecord, if_pos hlist]
    simp (disch := omega) only [unpack_u64, unpack_u32, pyIndex_ok hread, ok_bind]
    exact book.locate_insert _ _ _ _
  · by_cases htrade : type = 'P'.toUInt8
    · subst htrade
      exact rfl
    · have hside : SideOk type record := by
        rintro (hA | hF | hP)
        · exact absurd (Or.inl hA) hadd
        · exact absurd (Or.inr hF) hadd
        · exact absurd hP htrade
      rw [applyRecord_eq h hside]
      split
      · exact rfl
      · exact book.apply_confined _

end ReferenceBook

/-- The announcement of a record, as the script compares it. -/
def announcesPadded? (target f : List UInt8) : Option UInt16 :=
  if frameType f = 'R'.toUInt8 ∧ pySlice (frameBody f) 11 19 = target then
    some (frameMessage f).stockLocate
  else none

/-- The locate of the first announcement among the frames, unless one was heard before. -/
def resolution (announces : List UInt8 → Option UInt16) (heard : Option UInt16)
    (frames : List (List UInt8)) : Option UInt16 :=
  frames.foldl (fun heard f => heard.or (announces f)) heard

/-- A state of the script that has heard this announcement. -/
structure Replay.Heard (state : Replay) (heard : Option UInt16) : Prop where
  resolved : state.resolved = heard.isSome
  locate : state.book.locate = heard.map UInt16.toNat

theorem stockLocate_frame (f : List UInt8) :
    (frameMessage f).stockLocate = u16At (frameBody f) 1 := by
  rw [Message.stockLocate, frameMessage, header_ofRecord]
  rfl

/-- The locate of a frame, as the script unpacks it. -/
theorem unpack_locate {f : List UInt8} (hf : IsFrame f) :
    unpack 2 (pySlice (frameBody f) 1 3) = .ok (frameMessage f).stockLocate.toNat := by
  have hroom := hf.body_room
  rw [stockLocate_frame]
  exact unpack_u16 rfl (by omega)

theorem Replay.Heard.step {state : Replay} {heard : Option UInt16} (h : state.Heard heard)
    {f : List UInt8} (hf : IsFrame f) (target : List UInt8) :
    Ends (fun state' : Replay => state'.Heard (heard.or (announcesPadded? target f)))
      (fun raised => raised = .keyError)
      (Replay.onRecord target [frameType f] (frameBody f) state) := by
  have hlist : ∀ c : UInt8, [frameType f] = [c] ↔ frameType f = c := fun c => List.singleton_inj
  rw [Replay.onRecord, unpack_locate hf, ok_bind, announcesPadded?]
  by_cases hR : frameType f = 'R'.toUInt8
  · rw [if_pos ((hlist _).mpr hR)]
    by_cases htarget : pySlice (frameBody f) 11 19 = target
    · rw [if_pos ⟨hR, htarget⟩]
      cases heard with
      | none =>
        rw [if_pos (by simp [h.resolved, htarget])]
        exact ⟨rfl, rfl⟩
      | some l =>
        rw [if_neg (by simp [h.resolved])]
        exact h
    · rw [if_neg fun hboth => htarget hboth.2, Option.or_none, if_neg (by simp [htarget])]
      exact h
  · rw [if_neg fun heq => hR ((hlist _).mp heq), if_neg fun hboth => hR hboth.1, Option.or_none]
    split
    · refine (state.book.applyRecord_confined hf.body_length).bind fun book hbook => ?_
      exact ⟨h.resolved, hbook.trans h.locate⟩
    · exact h

/-- What a script does with one frame. -/
def scriptStep {σ : Type*} (onRecord : List UInt8 → List UInt8 → σ → Except Raised σ) (s : σ)
    (f : List UInt8) : Except Raised σ :=
  onRecord [frameType f] (frameBody f) s

/-- The script over any frames: it resolves, or it raises a `KeyError`. -/
theorem run_replay {frames : List (List UInt8)} (hframes : ∀ f ∈ frames, IsFrame f)
    (target : List UInt8) :
    Ends (fun state : Replay => state.Heard (resolution (announcesPadded? target) none frames))
      (fun raised => raised = .keyError) (run (scriptStep (Replay.onRecord target)) {} frames) :=
  run_ends (fun _ _ f hf h => h.step (hframes f hf) target) ⟨rfl, rfl⟩

end Itch

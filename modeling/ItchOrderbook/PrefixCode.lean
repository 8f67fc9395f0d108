import Mathlib.Data.List.Basic
import Mathlib.Data.List.Infix

/-!
# Reading a stream as words of a prefix code

No word of a prefix code is a proper prefix of another, so a stream can be cut
into words in one way only: words as long as one fits, then a remainder that no
word begins. `Parses` is that cut. It exists for every stream, it is unique,
and it composes when more input arrives.
-/

namespace PrefixCode

universe u
variable {α : Type u}

/-- A set of nonempty words in which no word is a proper prefix of another. -/
structure Code (α : Type u) where
  Word : List α → Prop
  nonempty : ∀ w, Word w → w ≠ []
  prefixFree : ∀ u v, Word u → Word v → u <+: v → u = v

variable (C : Code α)

/-- No word can be read off the front of the stream. -/
def Stuck (rest : List α) : Prop := ∀ w, C.Word w → ¬ w <+: rest

/-- The stream is `words` in a row, followed by a remainder no word begins. -/
structure Parses (words : List (List α)) (rest stream : List α) : Prop where
  isWord : ∀ w ∈ words, C.Word w
  stuck : Stuck C rest
  eq : stream = words.flatten ++ rest

variable {C}

theorem stuck_nil : Stuck C [] := by
  intro w hw hpre
  exact C.nonempty w hw (List.prefix_nil.mp hpre)

/-- Two words that begin the same stream are the same word. -/
theorem word_unique {u v stream : List α} (hu : C.Word u) (hv : C.Word v)
    (hus : u <+: stream) (hvs : v <+: stream) : u = v := by
  rcases List.prefix_or_prefix_of_prefix hus hvs with h | h
  · exact C.prefixFree u v hu hv h
  · exact (C.prefixFree v u hv hu h).symm

theorem parses_stuck {rest : List α} (h : Stuck C rest) : Parses C [] rest rest where
  isWord := by simp
  stuck := h
  eq := rfl

theorem parses_cons {w : List α} (hw : C.Word w) {words : List (List α)}
    {rest stream : List α} (h : Parses C words rest stream) :
    Parses C (w :: words) rest (w ++ stream) where
  isWord := by
    intro x hx
    rcases List.mem_cons.mp hx with rfl | hx
    · exact hw
    · exact h.isWord x hx
  stuck := h.stuck
  eq := by rw [h.eq, List.flatten_cons, List.append_assoc]

theorem Parses.tail {w : List α} {words : List (List α)} {rest stream : List α}
    (h : Parses C (w :: words) rest stream) :
    Parses C words rest (words.flatten ++ rest) where
  isWord := fun x hx => h.isWord x (List.mem_cons_of_mem w hx)
  stuck := h.stuck
  eq := rfl

theorem Parses.unique {words words' : List (List α)} {rest rest' stream : List α}
    (h : Parses C words rest stream) (h' : Parses C words' rest' stream) :
    words = words' ∧ rest = rest' := by
  induction words generalizing words' stream with
  | nil =>
    cases words' with
    | nil => exact ⟨rfl, h.eq.symm.trans h'.eq⟩
    | cons v vs =>
      have hrest : stream = rest := h.eq
      have hpre : v <+: rest := by
        rw [← hrest, h'.eq, List.flatten_cons, List.append_assoc]
        exact List.prefix_append _ _
      exact absurd hpre (h.stuck v (h'.isWord v List.mem_cons_self))
  | cons w ws ih =>
    have hw : w <+: stream := by
      rw [h.eq, List.flatten_cons, List.append_assoc]
      exact List.prefix_append _ _
    cases words' with
    | nil =>
      have hrest : stream = rest' := h'.eq
      exact absurd (hrest ▸ hw) (h'.stuck w (h.isWord w List.mem_cons_self))
    | cons v vs =>
      have hv : v <+: stream := by
        rw [h'.eq, List.flatten_cons, List.append_assoc]
        exact List.prefix_append _ _
      have heq : w = v :=
        word_unique (h.isWord w List.mem_cons_self) (h'.isWord v List.mem_cons_self) hw hv
      subst heq
      have hsame : ws.flatten ++ rest = vs.flatten ++ rest' := by
        have hboth := h.eq.symm.trans h'.eq
        rw [List.flatten_cons, List.flatten_cons, List.append_assoc, List.append_assoc]
          at hboth
        exact List.append_cancel_left hboth
      obtain ⟨hws, hr⟩ := ih h.tail (by rw [hsame]; exact h'.tail)
      exact ⟨by rw [hws], hr⟩

/-- Every stream has its cut: read words off the front until none fits. -/
theorem parses_exists (stream : List α) : ∃ words rest, Parses C words rest stream := by
  induction hn : stream.length using Nat.strongRecOn generalizing stream with
  | ind n ih =>
    by_cases h : ∃ w, C.Word w ∧ w <+: stream
    · obtain ⟨w, hw, tail, rfl⟩ := h
      have hpos : 0 < w.length := List.length_pos_iff.mpr (C.nonempty w hw)
      rw [List.length_append] at hn
      obtain ⟨words, rest, htail⟩ := ih tail.length (by omega) tail rfl
      exact ⟨w :: words, rest, parses_cons hw htail⟩
    · exact ⟨[], stream, parses_stuck fun w hw hpre => h ⟨w, hw, hpre⟩⟩

theorem parses_existsUnique (stream : List α) :
    ∃! cut : List (List α) × List α, Parses C cut.1 cut.2 stream := by
  obtain ⟨words, rest, h⟩ := parses_exists (C := C) stream
  refine ⟨(words, rest), h, ?_⟩
  rintro ⟨words', rest'⟩ h'
  obtain ⟨rfl, rfl⟩ := h'.unique h
  rfl

/-- More input only extends the remainder: the words already read stay read. -/
theorem Parses.append {words words' : List (List α)} {rest rest' stream more : List α}
    (h : Parses C words rest stream) (h' : Parses C words' rest' (rest ++ more)) :
    Parses C (words ++ words') rest' (stream ++ more) where
  isWord := by
    intro w hw
    rcases List.mem_append.mp hw with hw | hw
    · exact h.isWord w hw
    · exact h'.isWord w hw
  stuck := h'.stuck
  eq := by
    rw [h.eq, List.append_assoc, h'.eq, List.flatten_append, List.append_assoc]

/-- A stream made of words alone is cut into exactly those words. -/
theorem parses_flatten {words : List (List α)} (h : ∀ w ∈ words, C.Word w) :
    Parses C words [] words.flatten where
  isWord := h
  stuck := stuck_nil
  eq := (List.append_nil _).symm

end PrefixCode

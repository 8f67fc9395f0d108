import ItchOrderbook.FinishedOrders

/-!
# Fills in parts

An order that is executed or cancelled in several parts, with messages about
other orders in between, ends up as if the first part had been all of them.
-/

namespace Itch

open NodeQueue KeyedList CheckedRuns

/-- Take shares off the order of a reference, if it rests. -/
def lessened (r : UInt64) (n : ℕ) (L : List Entry) : List Entry :=
  update Entry.reference r (Entry.less n) L

/-- The shares a message takes off the order of a reference, when that is what it does. -/
def reduction? (l : UInt16) (r : UInt64) (m : Message) : Option ℕ :=
  match m.actionAt? l with
  | some (.execute reference shares) | some (.cancel reference shares) =>
    if reference = r then some shares.toNat else none
  | _ => none

/-- Whatever the messages do about the order of a reference is to reduce it. -/
def OnlyReduced (l : UInt16) (r : UInt64) (ms : List Message) : Prop :=
  ∀ m ∈ ms, reduction? l r m = none → ∀ a ∈ m.actionAt? l, r ∉ a.references

instance decidableOnlyReduced (l : UInt16) (r : UInt64) (ms : List Message) :
    Decidable (OnlyReduced l r ms) :=
  inferInstanceAs (Decidable
    (∀ m ∈ ms, reduction? l r m = none → ∀ a ∈ m.actionAt? l, r ∉ a.references))

/-- The messages that do not reduce the order. -/
def unreducing (l : UInt16) (r : UInt64) (ms : List Message) : List Message :=
  ms.filter fun m => (reduction? l r m).isNone

/-- What the messages take off the order altogether. -/
def reducedBy (l : UInt16) (r : UInt64) (ms : List Message) : ℕ :=
  (ms.map fun m => (reduction? l r m).getD 0).sum

section Lists

variable {l : UInt16} {r : UInt64} {L : List Entry} {m : Message}

/-- An action works beside a rewriting of an entry it does not name. -/
theorem fifo_update {a : BookAction} (h : r ∉ a.references) {g : Entry → Option Entry}
    (hg : InPlace g) (L : List Entry) :
    fifo (update Entry.reference r g L) a = update Entry.reference r g (fifo L a) := by
  have hplaced : placed (update Entry.reference r g L) a = placed L a := by
    cases a with
    | replace original new price shares =>
      have hne : r ≠ original := by
        rintro rfl
        exact h List.mem_cons_self
      rw [placed, placed, find?_update hne hg.reference]
    | add side reference price shares => rfl
    | execute reference shares => rfl
    | cancel reference shares => rfl
    | delete reference => rfl
    | trade => rfl
  have hshrink : shrink (update Entry.reference r g L) a =
      update Entry.reference r g (shrink L a) := by
    rcases shrink_eq a with hid | ⟨r', hr', g', hg', hupdate⟩
    · rw [hid, hid]
    · have hne : r' ≠ r := by
        rintro rfl
        exact h hr'
      rw [hupdate, hupdate]
      exact update_comm hne hg'.reference hg.reference L
  have hkept : update Entry.reference r g (placed L a).toList = (placed L a).toList := by
    refine update_of_absent fun e he heq => ?_
    exact h (heq ▸ placed_reference (Option.mem_toList.mp he))
  rw [fifo_eq, fifo_eq, hplaced, hshrink, update_append, hkept]

/-- Two reductions of an order are one of their sum. -/
theorem lessened_lessened (n k : ℕ) (L : List Entry) :
    lessened r k (lessened r n L) = lessened r (n + k) L := by
  induction L with
  | nil => rfl
  | cons e L ih =>
    simp only [lessened] at ih ⊢
    rw [update_cons, update_cons]
    by_cases he : e.reference = r
    · rw [if_pos he, if_pos he, update_append, ih]
      congr 1
      by_cases hgone : e.shares - n = 0
      · have hboth : e.shares - (n + k) = 0 := by omega
        simp [Entry.less, hgone, hboth, update]
      · have hsum : e.shares - n - k = e.shares - (n + k) := by omega
        by_cases hboth : e.shares - (n + k) = 0
        · simp [Entry.less, hgone, hsum, hboth, update, he]
        · simp [Entry.less, hgone, hsum, hboth, update, he]
    · rw [if_neg he, if_neg he, update_cons, if_neg he, ih]

theorem fifoStep_reduction {n : ℕ} (h : reduction? l r m = some n) (L : List Entry) :
    fifoStep l L m = lessened r n L := by
  rw [reduction?] at h
  rw [fifoStep]
  cases hact : m.actionAt? l with
  | none =>
    rw [hact] at h
    cases h
  | some a =>
    rw [hact] at h
    cases a with
    | execute reference shares =>
      obtain ⟨rfl, rfl⟩ : reference = r ∧ shares.toNat = n := by simpa using h
      rfl
    | cancel reference shares =>
      obtain ⟨rfl, rfl⟩ : reference = r ∧ shares.toNat = n := by simpa using h
      rfl
    | _ => cases h

theorem valid_reduction {n : ℕ} (h : reduction? l r m = some n) :
    Valid l L m ↔ ∀ e ∈ L, e.reference = r → n ≤ e.shares := by
  rw [reduction?] at h
  cases hact : m.actionAt? l with
  | none =>
    rw [hact] at h
    cases h
  | some a =>
    rw [hact] at h
    cases a with
    | execute reference shares =>
      obtain ⟨rfl, rfl⟩ : reference = r ∧ shares.toNat = n := by simpa using h
      simp [Valid, hact, Admissible]
    | cancel reference shares =>
      obtain ⟨rfl, rfl⟩ : reference = r ∧ shares.toNat = n := by simpa using h
      simp [Valid, hact, Admissible]
    | _ => cases h

theorem fifoStep_lessened (h : ∀ a ∈ m.actionAt? l, r ∉ a.references) (n : ℕ) (L : List Entry) :
    fifoStep l (lessened r n L) m = lessened r n (fifoStep l L m) := by
  simp only [fifoStep]
  cases hact : m.actionAt? l with
  | none => rfl
  | some a => exact fifo_update (h a hact) (inPlace_less n) L

theorem mem_lessened {n : ℕ} {e : Entry} (h : e.reference ≠ r) :
    e ∈ lessened r n L ↔ e ∈ L := by
  rw [lessened, mem_update]
  constructor
  · rintro (⟨he, _⟩ | ⟨x, _, hx, heq⟩)
    · exact he
    · exact absurd (((inPlace_less n).reference x e heq).trans hx) h
  · exact fun he => Or.inl ⟨he, h⟩

theorem valid_lessened (h : ∀ a ∈ m.actionAt? l, r ∉ a.references) (n : ℕ) :
    Valid l (lessened r n L) m ↔ Valid l L m := by
  refine forall₂_congr fun a ha => admissible_congr fun e he => mem_lessened ?_
  rintro rfl
  exact h a ha he

theorem mem_fifoStep_unnamed (h : ∀ a ∈ m.actionAt? l, r ∉ a.references) {e : Entry}
    (he : e.reference = r) : e ∈ fifoStep l L m ↔ e ∈ L := by
  rw [fifoStep]
  cases hact : m.actionAt? l with
  | none => rfl
  | some a => exact mem_fifo (he ▸ h a hact)

/-- What is left after a part still bears the next one, when the whole was borne. -/
theorem shares_lessened {n k : ℕ} (h : ∀ e ∈ L, e.reference = r → n + k ≤ e.shares) :
    ∀ e ∈ lessened r n L, e.reference = r → k ≤ e.shares := by
  intro e he href
  rcases mem_update.mp he with ⟨_, hne⟩ | ⟨x, hx, hxr, hless⟩
  · exact absurd href hne
  · have hbound := h x hx hxr
    rw [Entry.less] at hless
    split at hless
    · cases hless
    · obtain rfl := Option.some.inj hless
      change k ≤ x.shares - n
      omega

/-- The induction is on the messages after the first part; `n` are the shares taken off so far,
and the messages that take off the rest are skipped on the other side. -/
theorem parts_add_up_from {rest : List Message} (honly : OnlyReduced l r rest) {n : ℕ}
    (hfits : ∀ e ∈ L, e.reference = r → n + reducedBy l r rest ≤ e.shares)
    (hvalid : Along (OrderBook.listStep l) (Valid l)
      (lessened r (n + reducedBy l r rest) L) (unreducing l r rest)) :
    Along (OrderBook.listStep l) (Valid l) (lessened r n L) rest ∧
      rest.foldl (fifoStep l) (lessened r n L) =
        (unreducing l r rest).foldl (fifoStep l) (lessened r (n + reducedBy l r rest) L) := by
  induction rest generalizing L n with
  | nil => exact ⟨trivial, rfl⟩
  | cons m rest ih =>
    have hrest : OnlyReduced l r rest := fun x hx => honly x (List.mem_cons_of_mem m hx)
    cases hpart : reduction? l r m with
    | some k =>
      have htotal : n + reducedBy l r (m :: rest) = n + k + reducedBy l r rest := by
        simp only [reducedBy, List.map_cons, List.sum_cons, hpart, Option.getD_some]
        omega
      have hskip : unreducing l r (m :: rest) = unreducing l r rest :=
        List.filter_cons_of_neg (by simp [hpart])
      rw [htotal] at hfits hvalid ⊢
      rw [hskip] at hvalid ⊢
      obtain ⟨halong, hfold⟩ := ih hrest hfits hvalid
      have hnext : fifoStep l (lessened r n L) m = lessened r (n + k) L := by
        rw [fifoStep_reduction hpart, lessened_lessened]
      refine ⟨⟨(valid_reduction hpart).mpr (shares_lessened fun e he href => ?_), ?_⟩, ?_⟩
      · have hbound := hfits e he href
        omega
      · change Along _ _ (fifoStep l (lessened r n L) m) rest
        rw [hnext]
        exact halong
      · rw [List.foldl_cons, hnext]
        exact hfold
    | none =>
      have hother := honly m List.mem_cons_self hpart
      have htotal : reducedBy l r (m :: rest) = reducedBy l r rest := by
        simp [reducedBy, hpart]
      have hkeep : unreducing l r (m :: rest) = m :: unreducing l r rest :=
        List.filter_cons_of_pos (by simp [hpart])
      rw [htotal] at hfits hvalid ⊢
      rw [hkeep] at hvalid ⊢
      obtain ⟨hm, hafter⟩ := hvalid
      change Along _ _ (fifoStep l (lessened r _ L) m) _ at hafter
      rw [fifoStep_lessened hother] at hafter
      obtain ⟨halong, hfold⟩ := ih hrest
        (fun e he href => hfits e ((mem_fifoStep_unnamed hother href).mp he) href) hafter
      refine ⟨⟨(valid_lessened hother n).mpr ((valid_lessened hother _).mp hm), ?_⟩, ?_⟩
      · change Along _ _ (fifoStep l (lessened r n L) m) rest
        rw [fifoStep_lessened hother]
        exact halong
      · rw [List.foldl_cons, List.foldl_cons, fifoStep_lessened hother, fifoStep_lessened hother]
        exact hfold

end Lists

namespace OrderBook

/-- A reduction may come in parts. Where the book accepts a run with one Executed or Cancel of
an order, it accepts the run with parts of it instead, the first in its place and the others
anywhere among the messages that follow, as long as these do nothing else about the order;
and both end with the same holdings. -/
theorem parts_add_up (build : Build) (l : UInt16) (hl : l ≠ 0)
    {before rest after : List Message} {whole first : Message} {r : UInt64} {n : ℕ}
    (hfirst : reduction? l r first = some n)
    (hwhole : reduction? l r whole = some (n + reducedBy l r rest))
    (honly : OnlyReduced l r rest)
    (haccepts : Along (OrderBook.on build) Accepts (located l)
      (before ++ (whole :: unreducing l r rest) ++ after)) :
    OrderBook.setLocate build {} l = .ok (located l) ∧
      Along (OrderBook.on build) Accepts (located l) (before ++ (first :: rest) ++ after) ∧
      ∃ b b', run (OrderBook.on build) (located l)
          (before ++ (whole :: unreducing l r rest) ++ after) = .ok b ∧
        run (OrderBook.on build) (located l) (before ++ (first :: rest) ++ after) = .ok b' ∧
        SameHoldings b b' := by
  have hstart := refinesAt_located l
  have hvalid := (hstart.along_accepts_iff build _).mp haccepts
  obtain ⟨hupto, hafter⟩ := along_listStep_append.mp hvalid
  obtain ⟨hbefore, hseg⟩ := along_listStep_append.mp hupto
  rw [List.foldl_append] at hafter
  generalize hlist : before.foldl (fifoStep l) [] = L at hseg hafter
  obtain ⟨hm, hothers⟩ := hseg
  change Along _ _ (fifoStep l L whole) _ at hothers
  rw [List.foldl_cons] at hafter
  rw [fifoStep_reduction hwhole] at hothers hafter
  have hfits := (valid_reduction hwhole).mp hm
  obtain ⟨halong, hfold⟩ := parts_add_up_from honly hfits hothers
  have hparts : Along (listStep l) (Valid l) [] (before ++ (first :: rest) ++ after) := by
    refine along_listStep_append.mpr ⟨along_listStep_append.mpr ⟨hbefore, ?_⟩, ?_⟩
    · rw [hlist]
      refine ⟨(valid_reduction hfirst).mpr fun e he href => ?_, ?_⟩
      · have hbound := hfits e he href
        omega
      · change Along _ _ (fifoStep l L first) rest
        rw [fifoStep_reduction hfirst]
        exact halong
    · rw [List.foldl_append, hlist, List.foldl_cons, fifoStep_reduction hfirst, hfold]
      exact hafter
  obtain ⟨b, hb, hR⟩ := run_refines build hstart hvalid
  obtain ⟨b', hb', hR'⟩ := run_refines build hstart hparts
  have hsame : (before ++ (first :: rest) ++ after).foldl (fifoStep l) [] =
      (before ++ (whole :: unreducing l r rest) ++ after).foldl (fifoStep l) [] := by
    simp only [List.foldl_append, List.foldl_cons, hlist, fifoStep_reduction hfirst,
      fifoStep_reduction hwhole, hfold]
  rw [hsame] at hR'
  exact ⟨setLocate_fresh build hl, (hstart.along_accepts_iff build _).mpr hparts, b, b', hb, hb',
    hR.toRefines.sameHoldings hR'.toRefines⟩

/-- An execution of 60 in two parts, with another order inserted between them. -/
theorem parts_add_up_two_parts :
    OrderBook.setLocate .debug {} 7 = .ok (located 7) ∧
      Along (OrderBook.on .debug) Accepts (located 7) ([.bid 7 1 100 5000] ++
        (.executing 7 1 20 :: [.bid 7 2 50 5000, .executing 7 1 40]) ++ []) ∧
      ∃ b b', run (OrderBook.on .debug) (located 7) ([.bid 7 1 100 5000] ++
          (.executing 7 1 60 :: unreducing 7 1 [.bid 7 2 50 5000, .executing 7 1 40]) ++ []) =
            .ok b ∧
        run (OrderBook.on .debug) (located 7) ([.bid 7 1 100 5000] ++
          (.executing 7 1 20 :: [.bid 7 2 50 5000, .executing 7 1 40]) ++ []) = .ok b' ∧
        SameHoldings b b' :=
  parts_add_up .debug 7 (by decide) (n := 20) (by decide) (by decide) (by decide) (by decide)

end OrderBook

end Itch

import ItchOrderbook.ReferenceBook

/-!
# Reading the reference book off the list

As long as no order is empty, the dictionaries of the script are functions of
the list of orders: an order for each entry, a level for each price with shares.
The counts and the best prices it reports are then those of the C++ book.
-/

namespace Itch

open KeyedList

namespace ReferenceBook

/-- The reference holds exactly the orders of the list, none of them empty. -/
structure Mirrors (book : ReferenceBook) (L : List Entry) : Prop where
  positive : ∀ e ∈ L, 0 < e.shares
  distinct : (L.map Entry.reference).Nodup
  orders : ∀ k order, book.orders[k]? = some order ↔
    ∃ e ∈ L, e.reference.toNat = k ∧ e.py = order
  levels : ∀ s k, (book.levels (BookSide.chr s))[k]? = nonzero (sumAt L s k)

theorem mirrors_fresh : Mirrors {} [] where
  positive := by simp
  distinct := List.nodup_nil
  orders := by simp
  levels := by
    intro s k
    have hempty : (({} : ReferenceBook).levels s.chr) = ∅ := by
      cases s <;> rfl
    rw [hempty]
    simp [sumAt, volume, nonzero]

namespace Mirrors

variable {book : ReferenceBook} {L : List Entry}

theorem insert (h : book.Mirrors L) {r : UInt64} (hfree : Absent Entry.reference r L)
    (s : BookSide) (p : PriceTicks) {n : ℕ} (hn : 0 < n) :
    (book.insert r.toNat s.chr p.toNat n).Mirrors (L ++ [⟨r, s, p, n⟩]) where
  positive := by
    intro e he
    rcases List.mem_append.mp he with he | he
    · exact h.positive e he
    · rw [List.mem_singleton.mp he]
      exact hn
  distinct := nodup_append h.distinct hfree
  orders := by
    intro k order
    simp only [insert_orders book r.toNat ⟨s.chr, p.toNat, n⟩, Std.ExtTreeMap.getElem?_insert,
      Std.LawfulEqCmp.compare_eq_iff_eq, List.mem_append, List.mem_singleton]
    by_cases hk : r.toNat = k
    · subst hk
      rw [if_pos rfl]
      constructor
      · rintro ⟨rfl⟩
        exact ⟨_, Or.inr rfl, rfl, rfl⟩
      · rintro ⟨e, he | rfl, href, rfl⟩
        · exact absurd (UInt64.toNat_inj.mp href) (hfree e he)
        · rfl
    · rw [if_neg hk, h.orders]
      constructor
      · rintro ⟨e, he, href, hpy⟩
        exact ⟨e, Or.inl he, href, hpy⟩
      · rintro ⟨e, he | rfl, href, hpy⟩
        · exact ⟨e, he, href, hpy⟩
        · exact absurd href hk
  levels := by
    intro t k
    have hold : ((book.levels s.chr).getD p.toNat 0 : ℤ) = sumAt L s p.toNat := by
      rw [Std.ExtTreeMap.getD_eq_getD_getElem?, h.levels, nonzero]
      split
      · rename_i hz
        simp [hz]
      · rfl
    have hat : PyOrder.At ⟨s.chr, p.toNat, n⟩ t.chr k ↔ s = t ∧ p.toNat = k := at_chr rfl t k
    rw [insert_levels book r.toNat ⟨s.chr, p.toNat, n⟩, sumAt_append]
    by_cases hplace : s = t ∧ p.toNat = k
    · rw [if_pos (hat.mpr hplace), if_pos hplace, hold]
      obtain ⟨rfl, rfl⟩ := hplace
      have hne : ((sumAt L s p.toNat + n : ℕ) : ℤ) ≠ 0 := by omega
      rw [nonzero, if_neg hne, Nat.cast_add]
    · rw [if_neg (mt hat.mp hplace), if_neg hplace, h.levels, Nat.add_zero]

/-- Taking shares off an order is the update of its entry. -/
theorem reduced (h : book.Mirrors L) {e : Entry} (he : e ∈ L) {book' : ReferenceBook}
    {removed : ℕ} {removeAll : Bool}
    (hreduced : Reduced book book' e.reference.toNat e.py removed
      (sumAt L e.side e.price.toNat) removeAll)
    (hle : removed ≤ e.shares) (hall : removeAll = true → removed = e.shares) :
    book'.Mirrors (update Entry.reference e.reference (Entry.less removed) L) where
  positive := by
    intro x hx
    rcases (mem_update_of_mem h.distinct he).mp hx with ⟨hxL, _⟩ | hx
    · exact h.positive x hxL
    · rw [Entry.less] at hx
      split at hx
      · cases hx
      · cases hx
        exact Nat.pos_of_ne_zero ‹_›
  distinct := nodup_update (inPlace_less removed).reference h.distinct
  orders := by
    intro k order
    have hreference := (inPlace_less removed).reference e
    rw [hreduced.lookup_entry hle hall]
    simp only [mem_update_of_mem h.distinct he]
    by_cases hk : e.reference.toNat = k
    · rw [if_pos hk, Option.map_eq_some_iff]
      constructor
      · rintro ⟨x, hx, hpy⟩
        exact ⟨x, Or.inr hx, by rw [hreference x hx, hk], hpy⟩
      · rintro ⟨x, ⟨_, hne⟩ | hx, href, hpy⟩
        · exact absurd (UInt64.toNat_inj.mp (href.trans hk.symm)) hne
        · exact ⟨x, hx, hpy⟩
    · rw [if_neg hk, h.orders]
      constructor
      · rintro ⟨x, hx, href, hpy⟩
        refine ⟨x, Or.inl ⟨hx, fun heq => hk ?_⟩, href, hpy⟩
        rw [← heq, href]
      · rintro ⟨x, ⟨hx, _⟩ | hx, href, hpy⟩
        · exact ⟨x, hx, href, hpy⟩
        · rw [hreference x hx] at href
          exact absurd href hk
  levels := by
    intro t k
    have hsum := sumAt_less h.distinct he hle t k
    have hat : e.py.At t.chr k ↔ e.side = t ∧ e.price.toNat = k := at_chr rfl t k
    rw [hreduced.levels]
    by_cases hplace : e.side = t ∧ e.price.toNat = k
    · rw [if_pos (hat.mpr hplace)]
      rw [if_pos hplace] at hsum
      obtain ⟨rfl, rfl⟩ := hplace
      congr 1
      omega
    · rw [if_neg hplace, Nat.add_zero] at hsum
      rw [if_neg (mt hat.mp hplace), h.levels, hsum]

/-- A reduction that fits never raises, and is an update of the list. -/
theorem reduceOrRemove_resting (h : book.Mirrors L) {e : Entry} (he : e ∈ L) {n : ℕ}
    {removeAll : Bool} (hfits : removeAll = false → n ≤ e.shares) {g : Entry → Option Entry}
    (hrest : g e = if removeAll then none else e.less n) :
    ∃ book', book.reduceOrRemove e.reference.toNat n removeAll = .ok book' ∧
      book'.tally = book.tally ∧ book'.locate = book.locate ∧
      book'.Mirrors (update Entry.reference e.reference g L) := by
  have horder : book.orders[e.reference.toNat]? = some e.py :=
    (h.orders _ _).mpr ⟨e, he, rfl, rfl⟩
  have htotal : (book.levels e.side.chr)[e.py.price]? =
      some (sumAt L e.side e.price.toNat : ℤ) := by
    have hpositive : 0 < sumAt L e.side e.price.toNat :=
      lt_of_lt_of_le (h.positive e he) (le_sumAt he)
    have hne : (sumAt L e.side e.price.toNat : ℤ) ≠ 0 := by omega
    rw [Entry.py, h.levels, nonzero, if_neg hne]
  obtain ⟨book', hrun, hreduced⟩ := reduceOrRemove_found horder htotal n removeAll
  -- what is taken off, and what is left of the entry
  obtain ⟨removed, hremoved, hle, hless, hall⟩ : ∃ removed : ℕ,
      (if removeAll then e.py.shares else (n : ℤ)) = removed ∧ removed ≤ e.shares ∧
        g e = e.less removed ∧ (removeAll = true → removed = e.shares) := by
    cases removeAll with
    | true => exact ⟨e.shares, rfl, Nat.le_refl _, by simp [hrest, Entry.less], fun _ => rfl⟩
    | false => exact ⟨n, rfl, hfits rfl, hrest, fun hb => absurd hb Bool.false_ne_true⟩
  have hupdate : update Entry.reference e.reference g L =
      update Entry.reference e.reference (Entry.less removed) L := by
    apply update_congr
    intro x hx href
    rw [List.inj_on_of_nodup_map h.distinct hx he href, hless]
  rw [hremoved] at hreduced
  rw [hupdate]
  exact ⟨book', hrun, hreduced.tally, hreduced.locate, h.reduced he hreduced hle hall⟩

theorem of_containers (h : book.Mirrors L) {book' : ReferenceBook}
    (horders : book'.orders = book.orders)
    (hlevels : ∀ s : BookSide, book'.levels s.chr = book.levels s.chr) : book'.Mirrors L where
  positive := h.positive
  distinct := h.distinct
  orders := by
    rw [horders]
    exact h.orders
  levels := by
    intro s k
    rw [hlevels]
    exact h.levels s k

theorem orders_eq_none (h : book.Mirrors L) {r : UInt64} :
    book.orders[r.toNat]? = none ↔ Absent Entry.reference r L := by
  constructor
  · rintro hnone e he rfl
    rw [(h.orders _ _).mpr ⟨e, he, rfl, rfl⟩] at hnone
    cases hnone
  · intro habsent
    cases horder : book.orders[r.toNat]? with
    | none => rfl
    | some order =>
      obtain ⟨e, he, href, _⟩ := (h.orders _ _).mp horder
      exact absurd (UInt64.toNat_inj.mp href) (habsent e he)

/-- The same where the reference may not be resting. -/
theorem reduceOrRemove (h : book.Mirrors L) (r : UInt64) (n : ℕ) (removeAll : Bool)
    (hfits : removeAll = false → ∀ e ∈ L, e.reference = r → n ≤ e.shares)
    {g : Entry → Option Entry} (hrest : ∀ e, g e = if removeAll then none else e.less n) :
    ∃ book', book.reduceOrRemove r.toNat n removeAll = .ok book' ∧
      book'.tally = book.tally ∧ book'.locate = book.locate ∧
      book'.Mirrors (update Entry.reference r g L) := by
  by_cases habsent : Absent Entry.reference r L
  · refine ⟨book, ?_, rfl, rfl, ?_⟩
    · rw [ReferenceBook.reduceOrRemove, h.orders_eq_none.mpr habsent]
    · rw [update_of_absent habsent]
      exact h
  · obtain ⟨e, he, rfl⟩ : ∃ e ∈ L, e.reference = r := by simpa [Absent] using habsent
    exact h.reduceOrRemove_resting he (fun hb => hfits hb e he rfl) (hrest e)

theorem counted (h : book.Mirrors L) (t : Tally) : (book.counted t).Mirrors L :=
  h.of_containers (by cases t <;> rfl) (by cases t <;> exact fun _ => rfl)

/-- The calls that reduce an order or take it out, and count it. -/
theorem reduction (h : book.Mirrors L) (r : UInt64) (n : ℕ) (removeAll : Bool)
    (hfits : removeAll = false → ∀ e ∈ L, e.reference = r → n ≤ e.shares)
    {g : Entry → Option Entry} (hrest : ∀ e, g e = if removeAll then none else e.less n)
    (u : Tally) :
    ∃ book', (book.reduceOrRemove r.toNat n removeAll).map (·.counted u) = .ok book' ∧
      book'.Mirrors (update Entry.reference r g L) ∧ book'.locate = book.locate ∧
      ∀ t, book'.tally t = book.tally t + if some u = some t then 1 else 0 := by
  obtain ⟨book', hrun, htally, hlocate, hmirrors⟩ := h.reduceOrRemove r n removeAll hfits hrest
  refine ⟨book'.counted u, by rw [hrun]; rfl, hmirrors.counted u, ?_, ?_⟩
  · rw [locate_counted, hlocate]
  · intro t
    rw [tally_counted, htally]
    simp

theorem replace (h : book.Mirrors L) {original new : UInt64} {p : PriceTicks} {n : UInt32}
    (ha : Admissible L (.replace original new p n))
    (hpos : Positive L (.replace original new p n)) :
    ∃ book', book.apply (.replace original new p n) = .ok book' ∧
      book'.Mirrors (fifo L (.replace original new p n)) ∧ book'.locate = book.locate ∧
      ∀ t, book'.tally t =
        book.tally t + if tallyOf L (.replace original new p n) = some t then 1 else 0 := by
  by_cases habsent : Absent Entry.reference original L
  · have hfind : L.find? (fun e => e.reference = original) = none := by
      simpa [Absent] using habsent
    rw [ReferenceBook.apply, ReferenceBook.replace, h.orders_eq_none.mpr habsent, fifo, hfind]
    exact ⟨book, rfl, h, rfl, fun t => by simp [tallyOf, habsent]⟩
  · obtain ⟨e, he, rfl⟩ : ∃ e ∈ L, e.reference = original := by simpa [Absent] using habsent
    have hn : 0 < n.toNat := by
      rcases hpos with habs | hn
      · exact absurd habs habsent
      · exact hn
    have hfree : Absent Entry.reference new
        (update Entry.reference e.reference (fun _ => none) L) := by
      rcases ha with habs | rfl | habs
      · exact absurd habs habsent
      · exact absent_drop L
      · exact absent_update (keeps_none _) habs
    have horder : book.orders[e.reference.toNat]? = some e.py :=
      (h.orders _ _).mpr ⟨e, he, rfl, rfl⟩
    obtain ⟨book', hrun, htally, hlocate, hmirrors⟩ :=
      h.reduceOrRemove e.reference 0 true (fun hb => absurd hb.symm Bool.false_ne_true)
        fun _ => rfl
    rw [fifo, find?_key h.distinct he]
    refine ⟨(book'.insert new.toNat e.side.chr p.toNat n.toNat).counted .replaces, ?_,
      (hmirrors.insert hfree e.side p hn).counted .replaces, ?_, ?_⟩
    · simp only [ReferenceBook.apply, ReferenceBook.replace, horder]
      rw [← Nat.cast_zero, hrun]
      rfl
    · rw [locate_counted, locate_insert, hlocate]
    · intro t
      rw [tally_counted, tally_insert, htally, tallyOf, if_neg habsent]
      simp

/-- An admissible call of nonempty orders never raises, and has its plain meaning. -/
theorem apply (h : book.Mirrors L) {a : BookAction} (ha : Admissible L a) (hpos : Positive L a) :
    ∃ book', book.apply a = .ok book' ∧ book'.Mirrors (fifo L a) ∧ book'.locate = book.locate ∧
      ∀ t, book'.tally t = book.tally t + if tallyOf L a = some t then 1 else 0 := by
  cases a with
  | add s r p n =>
    refine ⟨(book.insert r.toNat s.chr p.toNat n.toNat).counted .adds, rfl,
      (h.insert ha s p hpos).counted .adds, ?_, ?_⟩
    · rw [locate_counted, locate_insert]
    · intro t
      rw [tally_counted, tally_insert]
      simp [tallyOf]
  | execute r n =>
    exact h.reduction r n.toNat false (fun _ => ha) (fun _ => rfl) .executions
  | cancel r n =>
    exact h.reduction r n.toNat false (fun _ => ha) (fun _ => rfl) .cancels
  | delete r =>
    exact h.reduction r 0 true (fun hb => absurd hb.symm Bool.false_ne_true)
      (fun _ => rfl) .deletes
  | replace original new p n => exact h.replace ha hpos
  | trade =>
    refine ⟨book.counted .trades, rfl, h.counted .trades, rfl, ?_⟩
    intro t
    rw [tally_counted]
    simp [tallyOf]

theorem mem_levels (h : book.Mirrors L) (s : BookSide) (k : ℕ) :
    ((book.levels s.chr)[k]?).isSome ↔ k ∈ (pricesOf L s).map UInt32.toNat := by
  have hsome : ((book.levels s.chr)[k]?).isSome ↔ sumAt L s k ≠ 0 := by
    rw [h.levels, nonzero]
    split <;> simp_all
  rw [hsome, sumAt_ne_zero h.positive, List.mem_map]
  constructor
  · rintro ⟨e, he, hs, hk⟩
    exact ⟨e.price, mem_pricesOf.mpr ⟨e, he, hs, rfl⟩, hk⟩
  · rintro ⟨p, hp, rfl⟩
    obtain ⟨e, he, hs, rfl⟩ := mem_pricesOf.mp hp
    exact ⟨e, he, hs, rfl⟩

theorem orderCount (h : book.Mirrors L) : book.orders.size = L.length := by
  have hnodup : ((L.map Entry.reference).map UInt64.toNat).Nodup :=
    h.distinct.map fun _ _ => UInt64.toNat_inj.mp
  rw [← L.length_map Entry.reference, ← (L.map Entry.reference).length_map UInt64.toNat]
  apply OrderBook.size_eq_length hnodup
  intro k
  rw [Option.isSome_iff_exists, List.map_map, List.mem_map]
  constructor
  · rintro ⟨order, horder⟩
    obtain ⟨e, he, hk, _⟩ := (h.orders k order).mp horder
    exact ⟨e, he, hk⟩
  · rintro ⟨e, he, hk⟩
    exact ⟨e.py, (h.orders k e.py).mpr ⟨e, he, hk, rfl⟩⟩

theorem levelCount (h : book.Mirrors L) (s : BookSide) :
    (book.levels s.chr).size = (pricesOf L s).length := by
  have hnodup : ((pricesOf L s).map UInt32.toNat).Nodup :=
    (List.nodup_dedup _).map fun _ _ => UInt32.toNat_inj.mp
  rw [← (pricesOf L s).length_map UInt32.toNat]
  exact OrderBook.size_eq_length hnodup (h.mem_levels s)

/-- The best of a side is the extreme key of its dictionary. -/
theorem best (h : book.Mirrors L) {s : BookSide} {best : Option BookLevel}
    (hbest : IsBest L s best) :
    book.best s.chr = best.map fun level => (level.price.toNat, (level.shares.toNat : ℤ)) := by
  have hkeys : ∀ k : ℕ, k ∈ book.levels s.chr ↔ k ∈ (pricesOf L s).map UInt32.toNat := by
    intro k
    rw [Std.ExtTreeMap.mem_iff_isSome_getElem?, h.mem_levels]
  cases best with
  | none =>
    have hempty : book.levels s.chr = ∅ := by
      rw [Std.ExtTreeMap.eq_empty_iff_forall_not_mem]
      intro k hk
      obtain ⟨p, hp, _⟩ := List.mem_map.mp ((hkeys k).mp hk)
      obtain ⟨e, he, hs, _⟩ := mem_pricesOf.mp hp
      exact hbest e he hs
    rw [ReferenceBook.best]
    simp [hempty]
  | some best =>
    obtain ⟨hmem, hnoworse, hshares⟩ := hbest
    have hkey : best.price.toNat ∈ book.levels s.chr :=
      (hkeys _).mpr (List.mem_map_of_mem hmem)
    have hfirst : (if s.chr = 'B' then (book.levels s.chr).maxKey?
        else (book.levels s.chr).minKey?) = some best.price.toNat := by
      cases s with
      | bids =>
        rw [if_pos (by decide), Std.ExtTreeMap.maxKey?_eq_some_iff_mem_and_forall]
        refine ⟨hkey, fun k hk => ?_⟩
        obtain ⟨p, hp, rfl⟩ := List.mem_map.mp ((hkeys k).mp hk)
        exact Std.isLE_compare.mpr (UInt32.le_iff_toNat_le.mp (hnoworse p hp))
      | asks =>
        rw [if_neg (by decide), Std.ExtTreeMap.minKey?_eq_some_iff_mem_and_forall]
        refine ⟨hkey, fun k hk => ?_⟩
        obtain ⟨p, hp, rfl⟩ := List.mem_map.mp ((hkeys k).mp hk)
        exact Std.isLE_compare.mpr (UInt32.le_iff_toNat_le.mp (hnoworse p hp))
    have htotal : (book.levels s.chr)[best.price.toNat]? = some (best.shares.toNat : ℤ) := by
      rw [Std.ExtTreeMap.mem_iff_isSome_getElem?, h.levels, nonzero] at hkey
      rw [h.levels, nonzero, hshares, sharesAt_eq]
      split
      · rename_i hzero
        rw [if_pos hzero] at hkey
        cases hkey
      · rfl
    rw [ReferenceBook.best]
    simp only [hfirst, Option.bind_some, htotal, Option.map_some]

end Mirrors

end ReferenceBook

end Itch

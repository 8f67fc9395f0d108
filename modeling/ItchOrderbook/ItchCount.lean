import ItchOrderbook.Decimals
import ItchOrderbook.ReferenceStops

/-!
# What the census prints

The census prints its two timestamps as times of day and its counts as a table,
most frequent type first. The texts of timestamps are as good as the numbers: no
two are alike, none is cut by the buffer, and within a day's worth of hours they
sort as the numbers do. The table is that of the Python reference up to the order
of types that are equally frequent.
-/

namespace Itch

open ByteFields CheckedRuns PrefixCode Decimals

/-- `std::snprintf`: one byte of the buffer is for the end of the string. -/
def snprintf (size : ℕ) (text : List Char) : List Char := text.take (size - 1)

def formatTimeOfDay (nanosecondsSinceMidnight : UInt64) : List Char :=
  let totalSeconds := nanosecondsSinceMidnight / 1000000000
  let nanoseconds := nanosecondsSinceMidnight % 1000000000
  snprintf 32 (padded 2 (totalSeconds / 3600).toNat ++ ':' ::
    (padded 2 ((totalSeconds / 60) % 60).toNat ++ ':' ::
      (padded 2 (totalSeconds % 60).toNat ++ '.' :: padded 9 nanoseconds.toNat)))

/-- The text after the hours: minutes, seconds and nanoseconds at their widths. -/
def belowHours (t : ℕ) : List Char :=
  ':' :: (fixed 2 (t / 1000000000 / 60 % 60) ++ ':' ::
    (fixed 2 (t / 1000000000 % 60) ++ '.' :: fixed 9 (t % 1000000000)))

theorem length_belowHours (t : ℕ) : (belowHours t).length = 16 := by
  simp [belowHours, length_fixed]

/-- The buffer never cuts the text. -/
theorem formatTimeOfDay_eq (t : UInt64) :
    formatTimeOfDay t = padded 2 (t.toNat / 1000000000 / 3600) ++ belowHours t.toNat := by
  have hhours : (t / 1000000000 / 3600).toNat = t.toNat / 1000000000 / 3600 := rfl
  have hminutes : (t / 1000000000 / 60 % 60).toNat = t.toNat / 1000000000 / 60 % 60 := rfl
  have hseconds : (t / 1000000000 % 60).toNat = t.toNat / 1000000000 % 60 := rfl
  have hnanoseconds : (t % 1000000000).toNat = t.toNat % 1000000000 := rfl
  have hwidth : width (t.toNat / 1000000000 / 3600) ≤ 7 := by
    have hlt := t.toNat_lt
    exact width_le (by decide) (by omega)
  rw [formatTimeOfDay, hhours, hminutes, hseconds, hnanoseconds,
    padded_eq_fixed (w := 2) (n := t.toNat / 1000000000 / 60 % 60) (by decide) (by omega),
    padded_eq_fixed (w := 2) (n := t.toNat / 1000000000 % 60) (by decide) (by omega),
    padded_eq_fixed (w := 9) (by decide) (by omega)]
  apply List.take_of_length_le
  simp only [List.length_append, List.length_cons, length_padded, length_fixed]
  omega

theorem belowHours_lt_iff (t u : ℕ) : belowHours t < belowHours u ↔
    t / 1000000000 / 60 % 60 < u / 1000000000 / 60 % 60 ∨
      t / 1000000000 / 60 % 60 = u / 1000000000 / 60 % 60 ∧
        (t / 1000000000 % 60 < u / 1000000000 % 60 ∨
          t / 1000000000 % 60 = u / 1000000000 % 60 ∧
            t % 1000000000 < u % 1000000000) := by
  have hblocks : ∀ w n m, (fixed w n).length = (fixed w m).length := by
    intro w n m
    rw [length_fixed, length_fixed]
  rw [belowHours, belowHours, List.cons_lt_cons_iff, append_lt_iff (hblocks _ _ _),
    List.cons_lt_cons_iff, append_lt_iff (hblocks _ _ _), List.cons_lt_cons_iff,
    fixed_lt_iff (by omega) (by omega), fixed_lt_iff (by omega) (by omega),
    fixed_lt_iff (by omega) (by omega), fixed_inj (by omega) (by omega),
    fixed_inj (by omega) (by omega)]
  simp

/-- The printed times are as good as the timestamps. No two 64-bit values print alike, the buffer
of 32 bytes cuts none of them, and the 48-bit values of a session print with 18 characters in
the order of the values. -/
theorem time_of_day_faithful (t u : UInt64) :
    (formatTimeOfDay t = formatTimeOfDay u ↔ t = u) ∧
      (formatTimeOfDay t).length ≤ 23 ∧
      (t.toNat < 2 ^ 48 ∧ u.toNat < 2 ^ 48 → (formatTimeOfDay t).length = 18 ∧
        (formatTimeOfDay t < formatTimeOfDay u ↔ t < u)) := by
  have hwidth : width (t.toNat / 1000000000 / 3600) ≤ 7 := by
    have hlt := t.toNat_lt
    exact width_le (by decide) (by omega)
  rw [formatTimeOfDay_eq, formatTimeOfDay_eq]
  refine ⟨⟨fun h => ?_, fun h => by rw [h]⟩, ?_, fun ⟨ht, hu⟩ => ?_⟩
  · obtain ⟨hhours, hbelow⟩ :=
      List.append_inj' h (by rw [length_belowHours, length_belowHours])
    have hsame := padded_inj hhours
    have hnotlt : ¬ belowHours t.toNat < belowHours u.toNat := by
      rw [hbelow]
      exact List.lt_irrefl _
    have hnotgt : ¬ belowHours u.toNat < belowHours t.toNat := by
      rw [hbelow]
      exact List.lt_irrefl _
    rw [belowHours_lt_iff] at hnotlt hnotgt
    apply UInt64.toNat_inj.mp
    omega
  · rw [List.length_append, length_belowHours, length_padded]
    omega
  · rw [padded_eq_fixed (by decide) (by omega), padded_eq_fixed (by decide) (by omega)]
    constructor
    · rw [List.length_append, length_belowHours, length_fixed]
    · rw [append_lt_iff (by rw [length_fixed, length_fixed]), fixed_lt_iff (by omega) (by omega),
        fixed_inj (by omega) (by omega), belowHours_lt_iff, UInt64.lt_iff_toNat_lt]
      omega

/-- `describe_type`. -/
def describeType (type : UInt8) : String :=
  if type = 'S'.toUInt8 then "System Event"
  else if type = 'R'.toUInt8 then "Stock Directory"
  else if type = 'H'.toUInt8 then "Stock Trading Action"
  else if type = 'Y'.toUInt8 then "Reg SHO Restriction"
  else if type = 'L'.toUInt8 then "Market Participant Position"
  else if type = 'V'.toUInt8 then "MWCB Decline Level"
  else if type = 'W'.toUInt8 then "MWCB Status"
  else if type = 'K'.toUInt8 then "IPO Quoting Period Update"
  else if type = 'J'.toUInt8 then "LULD Auction Collar"
  else if type = 'h'.toUInt8 then "Operational Halt"
  else if type = 'A'.toUInt8 then "Add Order"
  else if type = 'F'.toUInt8 then "Add Order with MPID"
  else if type = 'E'.toUInt8 then "Order Executed"
  else if type = 'C'.toUInt8 then "Order Executed with Price"
  else if type = 'X'.toUInt8 then "Order Cancel"
  else if type = 'D'.toUInt8 then "Order Delete"
  else if type = 'U'.toUInt8 then "Order Replace"
  else if type = 'P'.toUInt8 then "Trade (non-cross)"
  else if type = 'Q'.toUInt8 then "Cross Trade"
  else if type = 'B'.toUInt8 then "Broken Trade"
  else if type = 'I'.toUInt8 then "Net Order Imbalance Indicator"
  else if type = 'N'.toUInt8 then "Retail Price Improvement"
  else ""

/-- The types with a count, in the order of the bytes. -/
def SessionCensus.present (census : SessionCensus) : List (UInt8 × ℕ) :=
  (List.finRange 256).filterMap fun i =>
    let type := UInt8.ofFin i
    if census.count type > 0 then some (type, census.count type) else none

/-- What sorting by descending count can make of the entries; ties may end up in any order. -/
structure SortedByCount {κ : Type*} (entries table : List (κ × ℕ)) : Prop where
  perm : table.Perm entries
  descending : table.Pairwise fun x y => y.2 ≤ x.2

/-- The items of the Python counter, in some order: one for each key that was counted. -/
structure CounterItems (counts : List UInt8 → ℕ) (items : List (List UInt8 × ℕ)) : Prop where
  counted : ∀ key n, (key, n) ∈ items ↔ counts key = n ∧ n ≠ 0
  distinct : (items.map Prod.fst).Nodup

theorem mem_present {census : SessionCensus} {type : UInt8} {n : ℕ} :
    (type, n) ∈ census.present ↔ census.count type = n ∧ n ≠ 0 := by
  rw [SessionCensus.present, List.mem_filterMap]
  constructor
  · rintro ⟨i, -, hi⟩
    dsimp only at hi
    split at hi
    · obtain ⟨rfl, rfl⟩ := Prod.mk.inj (Option.some.inj hi)
      exact ⟨rfl, Nat.pos_iff_ne_zero.mp ‹_›⟩
    · cases hi
  · rintro ⟨rfl, hpos⟩
    refine ⟨type.toFin, List.mem_finRange _, ?_⟩
    dsimp only
    rw [UInt8.ofFin_toFin, if_pos (Nat.pos_iff_ne_zero.mpr hpos)]

theorem nodup_present (census : SessionCensus) : census.present.Nodup := by
  refine List.Nodup.filterMap ?_ (List.nodup_finRange 256)
  intro i j x hi hj
  have htype : ∀ i : Fin 256, x ∈ (if census.count (UInt8.ofFin i) > 0 then
      some (UInt8.ofFin i, census.count (UInt8.ofFin i)) else none) → x.1 = UInt8.ofFin i := by
    intro i hi
    split at hi
    · exact (congrArg Prod.fst (Option.some.inj hi)).symm
    · cases hi
  have hsame := (htype i hi).symm.trans (htype j hj)
  rw [← UInt8.toFin_ofFin i, hsame, UInt8.toFin_ofFin]

/-- Two sorted tables of entries with the same counts show the same counts, line by line. -/
theorem SortedByCount.counts_eq {κ κ' : Type*} {entries table : List (κ × ℕ)}
    {entries' table' : List (κ' × ℕ)} (h : SortedByCount entries table)
    (h' : SortedByCount entries' table')
    (hperm : (entries.map Prod.snd).Perm (entries'.map Prod.snd)) :
    table.map Prod.snd = table'.map Prod.snd := by
  have hleft : (table.map Prod.snd).Pairwise fun n m => m ≤ n :=
    List.pairwise_map.mpr h.descending
  have hright : (table'.map Prod.snd).Pairwise fun n m => m ≤ n :=
    List.pairwise_map.mpr h'.descending
  exact List.Perm.eq_of_pairwise (fun _ _ _ _ hnm hmn => Nat.le_antisymm hmn hnm) hleft hright
    ((h.perm.map Prod.snd).trans (hperm.trans (h'.perm.map Prod.snd).symm))

/-- The entries of the census are the items of the counter. -/
theorem counterItems_present {census : SessionCensus} {reference : ReferenceCensus}
    (hsame : SameCensus reference census)
    (hkeys : ∀ key, reference.counts key ≠ 0 → ∃ type, key = [type]) :
    CounterItems reference.counts (census.present.map fun x => ([x.1], x.2)) where
  counted := by
    intro key n
    rw [List.mem_map]
    constructor
    · rintro ⟨⟨type, m⟩, hmem, heq⟩
      obtain ⟨rfl, rfl⟩ := Prod.mk.inj heq
      rw [hsame.counts]
      exact mem_present.mp hmem
    · rintro ⟨rfl, hne⟩
      obtain ⟨type, rfl⟩ := hkeys key hne
      exact ⟨(type, reference.counts [type]), mem_present.mpr ⟨(hsame.counts type).symm, hne⟩, rfl⟩
  distinct := by
    rw [List.map_map]
    refine (nodup_present census).map_on ?_
    rintro ⟨t, n⟩ ht ⟨u, m⟩ hu heq
    obtain rfl : t = u := List.singleton_inj.mp heq
    rw [← (mem_present.mp ht).1, ← (mem_present.mp hu).1]

theorem CounterItems.perm {counts : List UInt8 → ℕ} {items items' : List (List UInt8 × ℕ)}
    (h : CounterItems counts items) (h' : CounterItems counts items') : items.Perm items' := by
  refine (List.perm_ext_iff_of_nodup (List.Nodup.of_map _ h.distinct)
    (List.Nodup.of_map _ h'.distinct)).mpr ?_
  rintro ⟨key, n⟩
  rw [h.counted, h'.counted]

/-- The descriptions are of the types of the specification, and of no others. -/
theorem describeType_specified : ∀ type,
    describeType type ≠ "" ↔ specMessageLength type ≠ 0 := by
  apply forall_byte
  decide +kernel

/-- On any file the two census tools print the same table, up to the order of types that are
equally frequent: the counts agree line by line, whichever way the sorts break ties, and every
type that is printed has a description. -/
theorem census_tables_agree (file : List UInt8) :
    ∃ outcome census reference consumed error,
      parseAll .relWithDebInfo SessionCensus.on file {} = .ok (outcome, census) ∧
      referenceCensus file none = .ok (reference, consumed, error) ∧
      CounterItems reference.counts (census.present.map fun x => ([x.1], x.2)) ∧
      ∀ items table table', CounterItems reference.counts items →
        SortedByCount census.present table → SortedByCount items table' →
        table.map Prod.snd = table'.map Prod.snd ∧
          (table.map fun x => ([x.1], x.2)).Perm table' ∧
          ∀ x ∈ table, describeType x.1 ≠ "" := by
  obtain ⟨frames, rest, h⟩ := parses_exists (C := itchCode) file
  obtain ⟨census, reference, hcensus, hreference, hsum, href⟩ := censuses_run h
  have hpresent := counterItems_present (same_census href hsum) href.keys
  refine ⟨_, census, reference, _, _, hcensus, hreference, hpresent,
    fun items table table' hitems htable htable' => ?_⟩
  have hitems_perm := hpresent.perm hitems
  refine ⟨htable.counts_eq htable' ?_, ?_, fun x hx => ?_⟩
  · have hcounts := hitems_perm.map Prod.snd
    rwa [List.map_map] at hcounts
  · exact (htable.perm.map _).trans (hitems_perm.trans htable'.perm.symm)
  · obtain ⟨hcount, hne⟩ := mem_present.mp (htable.perm.mem_iff.mp hx)
    rw [← hcount, hsum.counts, ← Nat.pos_iff_ne_zero, List.countP_pos_iff] at hne
    obtain ⟨record, hrecord, htype⟩ := hne
    obtain ⟨f, hf, rfl⟩ := List.mem_map.mp hrecord
    rw [describeType_specified, ← of_decide_eq_true htype, (h.isWord f hf).body_type]
    exact (h.isWord f hf).specified

end Itch

import ItchOrderbook.KeyedList

/-!
# FIFO queues with node identities

A linked list is seen through its nodes: each node carries an identity, given
when it was allocated, and a payload. An iterator is a node identity, so a
dereference is a lookup that fails when the node is not in this queue. Queue
order is list order, oldest first.
-/

namespace NodeQueue

universe u v w
variable {α : Type u} {κ : Type v}

/-- Identity of an allocated node. -/
abbrev NodeId := ℕ

/-- The nodes of one queue, oldest first. -/
abbrev Queue (α : Type u) := List (NodeId × α)

def ids (q : Queue α) : List NodeId := q.map Prod.fst

def payloads (q : Queue α) : List α := q.map Prod.snd

def pushBack (q : Queue α) (n : NodeId) (a : α) : Queue α := q ++ [(n, a)]

/-- The payload of node `n`, when `n` is a node of this queue. -/
def deref (q : Queue α) (n : NodeId) : Option α := q.lookup n

/-- Overwrite the payload of node `n` in place. -/
def assign (q : Queue α) (n : NodeId) (a : α) : Queue α :=
  q.map fun e => if e.1 = n then (n, a) else e

/-- Unlink node `n`. -/
def unlink (q : Queue α) (n : NodeId) : Queue α := q.filter fun e => e.1 ≠ n

@[simp] theorem ids_pushBack (q : Queue α) (n : NodeId) (a : α) :
    ids (pushBack q n a) = ids q ++ [n] := by
  simp [ids, pushBack]

@[simp] theorem payloads_pushBack (q : Queue α) (n : NodeId) (a : α) :
    payloads (pushBack q n a) = payloads q ++ [a] := by
  simp [payloads, pushBack]

@[simp] theorem ids_assign (q : Queue α) (n : NodeId) (a : α) :
    ids (assign q n a) = ids q := by
  simp only [ids, assign, List.map_map]
  apply List.map_congr_left
  intro e _
  by_cases he : e.1 = n
  · simp [he]
  · simp [he]

theorem ids_unlink (q : Queue α) (n : NodeId) :
    ids (unlink q n) = (ids q).filter (· ≠ n) := by
  simp [ids, unlink, List.filter_map, Function.comp_def]

theorem mem_ids {q : Queue α} {n : NodeId} : n ∈ ids q ↔ ∃ a, (n, a) ∈ q := by
  simp [ids]

theorem mem_of_deref {q : Queue α} {n : NodeId} {a : α} (h : deref q n = some a) :
    (n, a) ∈ q := by
  obtain ⟨l₁, l₂, rfl, _⟩ := List.lookup_eq_some_iff.mp h
  simp

theorem mem_ids_of_deref {q : Queue α} {n : NodeId} {a : α} (h : deref q n = some a) :
    n ∈ ids q :=
  mem_ids.mpr ⟨a, mem_of_deref h⟩

/-- With distinct identities a node has exactly one payload. -/
theorem deref_of_mem {q : Queue α} (hq : (ids q).Nodup) {n : NodeId} {a : α}
    (h : (n, a) ∈ q) : deref q n = some a := by
  induction q with
  | nil => cases h
  | cons e q ih =>
    rw [ids, List.map_cons, List.nodup_cons] at hq
    rcases List.mem_cons.mp h with rfl | h
    · simp [deref]
    · have hne : n ≠ e.1 := fun heq => hq.1 (heq ▸ List.mem_map_of_mem h)
      have hbeq : (n == e.1) = false := by simpa using hne
      rw [deref, List.lookup_cons, hbeq]
      exact ih hq.2 h

theorem mem_assign {q : Queue α} {n k : NodeId} {a b : α} (hn : n ∈ ids q) :
    (k, b) ∈ assign q n a ↔ (k = n ∧ b = a) ∨ (k ≠ n ∧ (k, b) ∈ q) := by
  simp only [assign, List.mem_map]
  constructor
  · rintro ⟨e, he, heq⟩
    by_cases hk : e.1 = n
    · rw [if_pos hk] at heq
      cases heq
      exact Or.inl ⟨rfl, rfl⟩
    · rw [if_neg hk] at heq
      subst heq
      exact Or.inr ⟨hk, he⟩
  · rintro (⟨rfl, rfl⟩ | ⟨hk, hmem⟩)
    · obtain ⟨c, hc⟩ := mem_ids.mp hn
      exact ⟨(k, c), hc, by simp⟩
    · exact ⟨(k, b), hmem, by simp [hk]⟩

theorem mem_unlink {q : Queue α} {n k : NodeId} {b : α} :
    (k, b) ∈ unlink q n ↔ k ≠ n ∧ (k, b) ∈ q := by
  simp [unlink, and_comm]

theorem mem_pushBack {q : Queue α} {n k : NodeId} {a b : α} :
    (k, b) ∈ pushBack q n a ↔ (k, b) ∈ q ∨ (k = n ∧ b = a) := by
  simp [pushBack]

/-- Unlinking a node drops the payloads of its key, when the key names that node only. -/
theorem payloads_unlink [DecidableEq κ] {key : α → κ} {k : κ} {q : Queue α} {n : NodeId}
    (hkey : ∀ e ∈ q, e.1 = n ↔ key e.2 = k) :
    payloads (unlink q n) = KeyedList.update key k (fun _ => none) (payloads q) := by
  induction q with
  | nil => rfl
  | cons e q ih =>
    have hrest := ih fun x hx => hkey x (List.mem_cons_of_mem e hx)
    have he := hkey e List.mem_cons_self
    simp only [payloads, unlink, List.map_cons, KeyedList.update_cons] at hrest ⊢
    by_cases hn : e.1 = n
    · rw [List.filter_cons_of_neg (by simpa using hn), if_pos (he.mp hn), hrest]
      rfl
    · rw [List.filter_cons_of_pos (by simpa using hn), if_neg (mt he.mpr hn), List.map_cons, hrest]

/-- Assigning a node rewrites the payloads of its key, when the key names that node only. -/
theorem payloads_assign [DecidableEq κ] {key : α → κ} {k : κ} {q : Queue α} {n : NodeId}
    (hkey : ∀ e ∈ q, e.1 = n ↔ key e.2 = k) (a : α) :
    payloads (assign q n a) = KeyedList.update key k (fun _ => some a) (payloads q) := by
  induction q with
  | nil => rfl
  | cons e q ih =>
    have hrest := ih fun x hx => hkey x (List.mem_cons_of_mem e hx)
    have he := hkey e List.mem_cons_self
    simp only [payloads, assign, List.map_cons, KeyedList.update_cons] at hrest ⊢
    by_cases hn : e.1 = n
    · rw [if_pos hn, if_pos (he.mp hn), hrest]
      rfl
    · rw [if_neg hn, if_neg (mt he.mpr hn), hrest]

section Sums

variable {M : Type w} [AddCommMonoid M] (f : α → M)

/-- What a queue carries in total, under a measure of its payloads. -/
def total (q : Queue α) : M := ((payloads q).map f).sum

@[simp] theorem total_nil : total f ([] : Queue α) = 0 := rfl

theorem total_pushBack (q : Queue α) (n : NodeId) (a : α) :
    total f (pushBack q n a) = total f q + f a := by
  simp [total]

theorem total_cons (e : NodeId × α) (q : Queue α) : total f (e :: q) = f e.2 + total f q := by
  simp [total, payloads]

theorem unlink_of_not_mem {q : Queue α} {n : NodeId} (h : n ∉ ids q) : unlink q n = q := by
  rw [unlink, List.filter_eq_self]
  intro e he
  have hne : e.1 ≠ n := fun heq => h (heq ▸ List.mem_map_of_mem he)
  simpa using hne

theorem assign_of_not_mem {q : Queue α} {n : NodeId} (h : n ∉ ids q) (a : α) :
    assign q n a = q := by
  rw [assign]
  conv_rhs => rw [← List.map_id q]
  apply List.map_congr_left
  intro e he
  have hne : e.1 ≠ n := fun heq => h (heq ▸ List.mem_map_of_mem he)
  simp [hne]

/-- A node's measure is what unlinking it takes off the total. -/
theorem total_unlink {q : Queue α} (hq : (ids q).Nodup) {n : NodeId} {a : α}
    (h : deref q n = some a) : total f (unlink q n) + f a = total f q := by
  induction q with
  | nil => cases h
  | cons e q ih =>
    obtain ⟨k, b⟩ := e
    rw [ids, List.map_cons, List.nodup_cons] at hq
    by_cases hk : n = k
    · subst hk
      have hb : b = a := by simpa [deref] using h
      have hrest : unlink ((n, b) :: q) n = q := by
        rw [unlink, List.filter_cons_of_neg (by simp)]
        exact unlink_of_not_mem hq.1
      rw [hrest, total_cons, hb, add_comm]
    · have hbeq : (n == k) = false := by simpa using hk
      have hrest : deref q n = some a := by
        rw [deref, List.lookup_cons, hbeq] at h
        exact h
      have hcons : unlink ((k, b) :: q) n = (k, b) :: unlink q n := by
        rw [unlink, List.filter_cons_of_pos (by simpa using fun h => hk h.symm)]
        rfl
      rw [hcons, total_cons, total_cons, add_assoc, ih hq.2 hrest]

/-- Rewriting a node exchanges its old measure for the new one. -/
theorem total_assign {q : Queue α} (hq : (ids q).Nodup) {n : NodeId} {a : α}
    (h : deref q n = some a) (b : α) :
    total f (assign q n b) + f a = total f q + f b := by
  induction q with
  | nil => cases h
  | cons e q ih =>
    obtain ⟨k, c⟩ := e
    rw [ids, List.map_cons, List.nodup_cons] at hq
    by_cases hk : n = k
    · subst hk
      have hc : c = a := by simpa [deref] using h
      have hrest : assign ((n, c) :: q) n b = (n, b) :: q := by
        have hsame := assign_of_not_mem hq.1 b
        simp only [assign] at hsame ⊢
        simp [hsame]
      rw [hrest, total_cons, total_cons, hc, add_comm (f b), add_right_comm,
        add_comm (total f q)]
    · have hbeq : (n == k) = false := by simpa using hk
      have hrest : deref q n = some a := by
        rw [deref, List.lookup_cons, hbeq] at h
        exact h
      have hcons : assign ((k, c) :: q) n b = (k, c) :: assign q n b := by
        have hne : k ≠ n := fun h => hk h.symm
        simp [assign, hne]
      rw [hcons, total_cons, total_cons, add_assoc, add_assoc, ih hq.2 hrest]

end Sums

section MapPayloads

variable {β : Type w} (g : α → β) (q : Queue α) (n : NodeId)

/-- The same nodes with other payloads. -/
def mapPayloads (q : Queue α) : Queue β := q.map fun e => (e.1, g e.2)

theorem payloads_mapPayloads : payloads (mapPayloads g q) = (payloads q).map g := by
  rw [payloads, mapPayloads, payloads, List.map_map, List.map_map]
  rfl

theorem deref_mapPayloads : deref (mapPayloads g q) n = (deref q n).map g := by
  induction q with
  | nil => rfl
  | cons e q ih =>
    rw [deref, mapPayloads, List.map_cons, List.lookup_cons, deref, List.lookup_cons]
    cases n == e.1 with
    | true => rfl
    | false => exact ih

theorem pushBack_mapPayloads (a : α) :
    mapPayloads g (pushBack q n a) = pushBack (mapPayloads g q) n (g a) := List.map_append

theorem assign_mapPayloads (a : α) :
    mapPayloads g (assign q n a) = assign (mapPayloads g q) n (g a) := by
  rw [mapPayloads, assign, assign, mapPayloads, List.map_map, List.map_map]
  apply List.map_congr_left
  intro e _
  by_cases he : e.1 = n
  · simp [he]
  · simp [he]

theorem unlink_mapPayloads : mapPayloads g (unlink q n) = unlink (mapPayloads g q) n := by
  rw [mapPayloads, unlink, unlink, mapPayloads, List.filter_map]
  rfl

theorem isEmpty_mapPayloads : (mapPayloads g q).isEmpty = q.isEmpty := List.isEmpty_map

end MapPayloads

section Renamed

variable (g : NodeId → NodeId) {q : Queue α} {n : NodeId}

/-- The same payloads on other nodes. -/
def renamed (q : Queue α) : Queue α := q.map fun e => (g e.1, e.2)

theorem payloads_renamed : payloads (renamed g q) = payloads q := by
  rw [payloads, renamed, payloads, List.map_map]
  rfl

theorem total_renamed {M : Type w} [AddCommMonoid M] (f : α → M) :
    total f (renamed g q) = total f q := by
  rw [total, total, payloads_renamed]

theorem isEmpty_renamed : (renamed g q).isEmpty = q.isEmpty := List.isEmpty_map

theorem mem_renamed {k : NodeId} {a : α} :
    (k, a) ∈ renamed g q ↔ ∃ n, (n, a) ∈ q ∧ g n = k := by
  simp only [renamed, List.mem_map, Prod.exists, Prod.mk.injEq]
  constructor
  · rintro ⟨n, b, hmem, rfl, rfl⟩
    exact ⟨n, hmem, rfl⟩
  · rintro ⟨n, hmem, rfl⟩
    exact ⟨n, a, hmem, rfl, rfl⟩

theorem renamed_congr {g g' : NodeId → NodeId} (h : ∀ n ∈ ids q, g' n = g n) :
    renamed g' q = renamed g q := by
  apply List.map_congr_left
  intro e he
  rw [h e.1 (List.mem_map_of_mem he)]

theorem pushBack_renamed (q : Queue α) (n : NodeId) (a : α) :
    renamed g (pushBack q n a) = pushBack (renamed g q) (g n) a := List.map_append

section Apart

variable {g} (h : ∀ m ∈ ids q, g m = g n → m = n)
include h

theorem deref_renamed : deref (renamed g q) (g n) = deref q n := by
  induction q with
  | nil => rfl
  | cons e q ih =>
    have hrest := ih fun m hm => h m (List.mem_cons_of_mem _ hm)
    rw [deref, renamed, List.map_cons, List.lookup_cons, deref, List.lookup_cons]
    by_cases he : e.1 = n
    · have hhere : (n == e.1) = true := by simp [he]
      have hthere : (g n == g e.1) = true := by simp [he]
      rw [hhere, hthere]
    · have hhere : (n == e.1) = false := by simpa using fun heq => he heq.symm
      have hthere : (g n == g e.1) = false := by
        simpa using fun heq : g n = g e.1 => he (h e.1 List.mem_cons_self heq.symm)
      rw [hhere, hthere]
      exact hrest

theorem assign_renamed (a : α) : renamed g (assign q n a) = assign (renamed g q) (g n) a := by
  rw [renamed, assign, assign, renamed, List.map_map, List.map_map]
  apply List.map_congr_left
  intro e he
  by_cases hn : e.1 = n
  · simp [hn]
  · have hne : g e.1 ≠ g n := fun heq => hn (h e.1 (List.mem_map_of_mem he) heq)
    simp [hn, hne]

theorem unlink_renamed : renamed g (unlink q n) = unlink (renamed g q) (g n) := by
  rw [renamed, unlink, unlink, renamed, List.filter_map]
  congr 1
  apply List.filter_congr
  intro e he
  by_cases hn : e.1 = n
  · simp [hn]
  · have hne : g e.1 ≠ g n := fun heq => hn (h e.1 (List.mem_map_of_mem he) heq)
    simp [hn, hne]

end Apart

/-- Two queues of the same payloads, each there once, differ in their nodes only. -/
theorem renamed_eq {q' : Queue α} (hpayloads : payloads q = payloads q')
    (hnodup : (payloads q).Nodup) (hg : ∀ n a, (n, a) ∈ q → (g n, a) ∈ q') : renamed g q = q' := by
  induction q generalizing q' with
  | nil => exact (List.map_eq_nil_iff.mp hpayloads.symm).symm
  | cons e q ih =>
    obtain ⟨n, a⟩ := e
    obtain ⟨⟨n', a'⟩, rest, rfl, rfl, hrest⟩ := List.map_eq_cons_iff.mp hpayloads.symm
    rw [payloads, List.map_cons, List.nodup_cons] at hnodup
    have hmem : ∀ {k b}, (k, b) ∈ rest → b ∈ q.map Prod.snd := fun hk =>
      hrest ▸ List.mem_map_of_mem (f := Prod.snd) hk
    have hhead : g n = n' := by
      rcases List.mem_cons.mp (hg n a' List.mem_cons_self) with heq | htail
      · exact congrArg Prod.fst heq
      · exact absurd (hmem htail) hnodup.1
    have htail : ∀ k b, (k, b) ∈ q → (g k, b) ∈ rest := by
      intro k b hk
      rcases List.mem_cons.mp (hg k b (List.mem_cons_of_mem _ hk)) with heq | htail
      · obtain ⟨-, rfl⟩ := Prod.mk.inj heq
        exact absurd (List.mem_map_of_mem (f := Prod.snd) hk) hnodup.1
      · exact htail
    change (g n, a') :: renamed g q = (n', a') :: rest
    rw [hhead, ih hrest.symm hnodup.2 htail]

end Renamed

end NodeQueue

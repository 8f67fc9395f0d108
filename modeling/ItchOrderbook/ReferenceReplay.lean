import ItchOrderbook.ReferenceTotals

/-!
# The session loop of the Python reference book

The script resolves its symbol against a padded name, remembers the locate, and
reads the fields of a record where it uses them. On a frame it never reads short,
and it does what the decoded message asks of the book.
-/

namespace Itch

open ByteFields KeyedList CheckedRuns PrefixCode

/-- `bytes.ljust(width)`. -/
def ljust (width : ℕ) (bytes : List UInt8) : List UInt8 :=
  bytes ++ List.replicate (width - bytes.length) ' '.toUInt8

/-- `_apply`. -/
def ReferenceBook.applyRecord (book : ReferenceBook) (messageType record : List UInt8) :
    Except Raised ReferenceBook :=
  if messageType = ['A'.toUInt8] ∨ messageType = ['F'.toUInt8] then do
    let reference ← unpack 8 (pySlice record 11 19)
    let side ← pyIndex record 19
    let shares ← unpack 4 (pySlice record 20 24)
    let price ← unpack 4 (pySlice record 32 36)
    return book.add reference (chr side) price shares
  else if messageType = ['E'.toUInt8] ∨ messageType = ['C'.toUInt8] then do
    let reference ← unpack 8 (pySlice record 11 19)
    let shares ← unpack 4 (pySlice record 19 23)
    book.execute reference shares
  else if messageType = ['X'.toUInt8] then do
    let reference ← unpack 8 (pySlice record 11 19)
    let shares ← unpack 4 (pySlice record 19 23)
    book.cancel reference shares
  else if messageType = ['D'.toUInt8] then do
    let reference ← unpack 8 (pySlice record 11 19)
    book.delete reference
  else if messageType = ['U'.toUInt8] then do
    let originalReference ← unpack 8 (pySlice record 11 19)
    let newReference ← unpack 8 (pySlice record 19 27)
    let shares ← unpack 4 (pySlice record 27 31)
    let price ← unpack 4 (pySlice record 31 35)
    book.replace originalReference newReference shares price
  else if messageType = ['P'.toUInt8] then
    .ok { book with trades := book.trades + 1 }
  else .ok book

/-- The locals of `replay` that change from record to record. -/
structure Replay where
  book : ReferenceBook := {}
  resolved : Bool := false

/-- The end of the loop body, once the record has its length. -/
def Replay.onRecord (target messageType record : List UInt8) (state : Replay) :
    Except Raised Replay := do
  let locate ← unpack 2 (pySlice record 1 3)
  if messageType = ['R'.toUInt8] then
    if !state.resolved && pySlice record 11 19 = target then
      return { book := { state.book with locate := some locate }, resolved := true }
    return state
  else if state.resolved && some locate = state.book.locate then
    let book ← state.book.applyRecord messageType record
    return { state with book }
  return state

/-- Bytes that are the UTF-8 encoding of some text. -/
def IsUtf8 (bytes : List UInt8) : Prop := bytes.toByteArray.IsValidUTF8

instance decidableIsUtf8 (bytes : List UInt8) : Decidable (IsUtf8 bytes) :=
  inferInstanceAs (Decidable bytes.toByteArray.IsValidUTF8)

theorem encode_ascii : ∀ n < 128, String.utf8EncodeChar (Char.ofNat n) = [UInt8.ofNat n] := by
  decide +kernel

/-- ASCII is its own encoding. -/
theorem isUtf8_ascii {symbol : List UInt8} (h : ∀ b ∈ symbol, b < 128) : IsUtf8 symbol := by
  refine ⟨symbol.map fun b => Char.ofNat b.toNat, ?_⟩
  rw [List.utf8Encode]
  congr 1
  induction symbol with
  | nil => rfl
  | cons b symbol ih =>
    have hb : b.toNat < 128 := UInt8.lt_iff_toNat_lt.mp (h b List.mem_cons_self)
    rw [List.map_cons, List.flatMap_cons, encode_ascii _ hb, UInt8.ofNat_toNat,
      ← ih fun x hx => h x (List.mem_cons_of_mem b hx), List.singleton_append]

/-- `symbol.encode()`, for the bytes given on the command line. Python decodes these as UTF-8; what
is not UTF-8 it keeps as lone surrogates, and they have no encoding. -/
def encodeUtf8 (symbol : List UInt8) : Except Raised (List UInt8) :=
  if IsUtf8 symbol then .ok symbol else .error .unicodeEncodeError

def replay (session symbol : List UInt8) :
    Except Raised (ReferenceBook × Bool × Option ReferenceError) := do
  let encoded ← encodeUtf8 symbol
  let target := ljust 8 encoded
  let (state, _, error) ← referenceLoop (Replay.onRecord target) (fun _ => false) session 0 {}
  return (state.book, state.resolved, error)

theorem replay_utf8 {symbol : List UInt8} (h : IsUtf8 symbol) (session : List UInt8) :
    replay session symbol =
      (referenceLoop (Replay.onRecord (ljust 8 symbol)) (fun _ => false) session 0 {}).map
        fun stop => (stop.1.book, stop.1.resolved, stop.2.2) := by
  rw [replay, encodeUtf8, if_pos h]
  change Except.bind (referenceLoop _ _ _ _ _) _ = _
  cases referenceLoop (Replay.onRecord (ljust 8 symbol)) (fun _ => false) session 0 {} <;> rfl

/-- Without an encoding the script does not get to the session. -/
theorem replay_not_utf8 {symbol : List UInt8} (h : ¬ IsUtf8 symbol) (session : List UInt8) :
    replay session symbol = .error .unicodeEncodeError := by
  rw [replay, encodeUtf8, if_neg h]
  rfl

/-- Padding a symbol that does not end in a space is the inverse of trimming. -/
theorem eq_ljust_iff {width : ℕ} {field symbol : List UInt8} (hlen : field.length = width)
    (hsymbol : symbol.getLast? ≠ some ' '.toUInt8) :
    field = ljust width symbol ↔ field.rdropWhile (fun b => b = ' '.toUInt8) = symbol := by
  constructor
  · intro h
    have hself : symbol.rdropWhile (fun b => decide (b = ' '.toUInt8)) = symbol := by
      rw [List.rdropWhile_eq_self_iff]
      intro hne
      rw [List.getLast?_eq_some_getLast hne] at hsymbol
      simpa using hsymbol
    rw [h, ljust]
    generalize width - symbol.length = n
    induction n with
    | zero => rw [List.replicate_zero, List.append_nil, hself]
    | succ n ih =>
      rw [List.replicate_succ', ← List.append_assoc, List.rdropWhile_concat_pos _ _ _ (by simp), ih]
  · intro h
    have hglue := List.rdropWhile_append_rtakeWhile (p := fun b => decide (b = ' '.toUInt8))
      (l := field)
    rw [h] at hglue
    have hpad : field.rtakeWhile (fun b => decide (b = ' '.toUInt8)) =
        List.replicate (width - symbol.length) ' '.toUInt8 := by
      rw [List.eq_replicate_iff]
      constructor
      · have hboth := congrArg List.length hglue
        rw [List.length_append] at hboth
        omega
      · intro b hb
        simpa using List.mem_rtakeWhile_imp hb
    rw [ljust, ← hpad, hglue]

section Reading

variable {record : List UInt8} {i j : ℕ}

theorem unpack_natAt {width : ℕ} (hj : i + width = j) (h : j ≤ record.length) :
    unpack width (pySlice record i j) = .ok (natAt width record i) := by
  subst hj
  rw [unpack, pySlice, Nat.add_sub_cancel_left, if_pos (length_slice h), natAt]

theorem unpack_u16 (hj : i + 2 = j) (h : j ≤ record.length) :
    unpack 2 (pySlice record i j) = .ok (u16At record i).toNat := by
  rw [unpack_natAt hj h, toNat_u16At (hj.trans_le h)]

theorem unpack_u32 (hj : i + 4 = j) (h : j ≤ record.length) :
    unpack 4 (pySlice record i j) = .ok (u32At record i).toNat := by
  rw [unpack_natAt hj h, toNat_u32At (hj.trans_le h)]

theorem unpack_u64 (hj : i + 8 = j) (h : j ≤ record.length) :
    unpack 8 (pySlice record i j) = .ok (u64At record i).toNat := by
  rw [unpack_natAt hj h, toNat_u64At (hj.trans_le h)]

/-- On the two sides the script and the book agree which is meant. -/
theorem chr_side {b : UInt8} (h : isValidSide b = true) : chr b = (Side.mk b).book.chr := by
  rcases (isValidSide_iff b).mp h with hb | hb
  · cases hb
    rfl
  · cases hb
    rfl

/-- On a record of its specified length `_apply` is the method of the decoded message. -/
theorem applyRecord_eq {type : UInt8} (h : record.length = (specMessageLength type).toNat)
    (hside : SideOk type record) (book : ReferenceBook) :
    book.applyRecord [type] record =
      match (Message.ofRecord type record).action? with
      | none => .ok book
      | some a => book.apply a := by
  have htype : ∀ c : UInt8, [type] = [c] ↔ type = c := fun c => List.singleton_inj
  simp only [ReferenceBook.applyRecord, Message.ofRecord, htype]
  by_cases hA : type = 'A'.toUInt8
  · subst hA
    have hlen : record.length = 36 := length_of_entry 'A' 36 (by decide) h
    have hread : 19 < record.length := by omega
    simp (disch := omega) only [true_or, if_true, unpack_u64, unpack_u32, pyIndex_ok hread,
      chr_side (hside (Or.inl rfl)), ok_bind]
    rfl
  by_cases hF : type = 'F'.toUInt8
  · subst hF
    have hlen : record.length = 40 := length_of_entry 'F' 40 (by decide) h
    have hread : 19 < record.length := by omega
    simp (disch := omega) only [or_true, if_true, unpack_u64, unpack_u32, pyIndex_ok hread,
      chr_side (hside (Or.inr (Or.inl rfl))), ok_bind]
    rfl
  rw [if_neg (not_or.mpr ⟨hA, hF⟩), if_neg hA]
  by_cases hE : type = 'E'.toUInt8
  · subst hE
    have hlen : record.length = 31 := length_of_entry 'E' 31 (by decide) h
    simp (disch := omega) only [true_or, if_true, unpack_u64, unpack_u32, ok_bind]
    rfl
  by_cases hC : type = 'C'.toUInt8
  · subst hC
    have hlen : record.length = 36 := length_of_entry 'C' 36 (by decide) h
    simp (disch := omega) only [or_true, if_true, unpack_u64, unpack_u32, ok_bind]
    rfl
  rw [if_neg (not_or.mpr ⟨hE, hC⟩)]
  by_cases hX : type = 'X'.toUInt8
  · subst hX
    have hlen : record.length = 23 := length_of_entry 'X' 23 (by decide) h
    simp (disch := omega) only [if_true, unpack_u64, unpack_u32, ok_bind]
    rfl
  rw [if_neg hX]
  by_cases hD : type = 'D'.toUInt8
  · subst hD
    have hlen : record.length = 19 := length_of_entry 'D' 19 (by decide) h
    simp (disch := omega) only [if_true, unpack_u64, ok_bind]
    rfl
  rw [if_neg hD, if_neg hD, if_neg hE, if_neg hX]
  by_cases hU : type = 'U'.toUInt8
  · subst hU
    have hlen : record.length = 35 := length_of_entry 'U' 35 (by decide) h
    simp (disch := omega) only [if_true, unpack_u64, unpack_u32, ok_bind]
    rfl
  rw [if_neg hU, if_neg hU, if_neg hF, if_neg hC]
  by_cases hP : type = 'P'.toUInt8
  · subst hP
    rfl
  rw [if_neg hP, if_neg hP]
  by_cases hS : type = 'S'.toUInt8
  · rw [if_pos hS]
    rfl
  rw [if_neg hS]
  by_cases hR : type = 'R'.toUInt8
  · rw [if_pos hR]
    rfl
  rw [if_neg hR]
  rfl

end Reading

/-- Only a directory record announces a symbol, and the padded name is how the script sees it. -/
theorem announces?_ofRecord {type : UInt8} {record symbol : List UInt8}
    (h : record.length = (specMessageLength type).toNat)
    (hsymbol : symbol.getLast? ≠ some ' '.toUInt8) :
    (Message.ofRecord type record).announces? symbol =
      if type = 'R'.toUInt8 ∧ pySlice record 11 19 = ljust 8 symbol then some (u16At record 1)
      else none := by
  by_cases hR : type = 'R'.toUInt8
  · subst hR
    have hlen : record.length = 39 := length_of_entry 'R' 39 (by decide) h
    have hroom : 11 + 8 ≤ record.length := by omega
    have htarget : pySlice record 11 19 = ljust 8 symbol ↔
        trim (alphaAt 8 record 11) = symbol := by
      rw [trim, slice_alphaAt hroom]
      exact eq_ljust_iff (length_slice hroom) hsymbol
    simp only [htarget, true_and]
    rfl
  · rw [if_neg fun hboth => hR hboth.1, Message.ofRecord]
    repeat' split
    all_goals rfl

namespace Replay

/-- The loop body in terms of the decoded message. -/
theorem onRecord_frame {f : List UInt8} (hf : IsFrame f)
    (hside : SideOk (frameType f) (frameBody f)) {symbol : List UInt8}
    (hsymbol : symbol.getLast? ≠ some ' '.toUInt8) (state : Replay) :
    onRecord (ljust 8 symbol) [frameType f] (frameBody f) state =
      if state.resolved then
        match if some (frameMessage f).stockLocate.toNat = state.book.locate then
          (frameMessage f).action? else none with
        | none => .ok state
        | some a => (state.book.apply a).map fun book => { state with book }
      else
        match (frameMessage f).announces? symbol with
        | none => .ok state
        | some l => .ok ⟨{ state.book with locate := some l.toNat }, true⟩ := by
  obtain ⟨book, resolved⟩ := state
  have hroom := hf.body_room
  have hlocate : unpack 2 (pySlice (frameBody f) 1 3) = .ok (u16At (frameBody f) 1).toNat :=
    unpack_u16 rfl (by omega)
  have hannounces : (frameMessage f).announces? symbol = _ :=
    announces?_ofRecord hf.body_length hsymbol
  have hheader : (frameMessage f).stockLocate = u16At (frameBody f) 1 := by
    rw [Message.stockLocate, frameMessage, header_ofRecord]
    rfl
  have happly : book.applyRecord [frameType f] (frameBody f) =
      match (frameMessage f).action? with
      | none => .ok book
      | some a => book.apply a :=
    applyRecord_eq hf.body_length hside book
  simp only [onRecord, hlocate, ok_bind, List.singleton_inj, hannounces, hheader]
  by_cases hR : frameType f = 'R'.toUInt8
  · have haction : (frameMessage f).action? = none := by
      rw [frameMessage, hR]
      rfl
    simp only [hR, haction, if_true, true_and, ite_self]
    cases resolved with
    | true => rfl
    | false =>
      by_cases htarget : pySlice (frameBody f) 11 19 = ljust 8 symbol
      · simp only [htarget]
        rfl
      · simp only [htarget]
        rfl
  · simp only [hR, false_and, if_false]
    cases resolved with
    | false => rfl
    | true =>
      by_cases hours : some (u16At (frameBody f) 1).toNat = book.locate
      · simp only [hours, happly, decide_true, Bool.and_self, if_true]
        cases (frameMessage f).action? with
        | none => rfl
        | some a => cases book.apply a <;> rfl
      · simp only [hours]
        rfl

/-- The script holds the view of the session so far. -/
structure Refines (state : Replay) (v : SymbolView) : Prop where
  resolved : state.resolved = v.locate.isSome
  locate : state.book.locate = v.locate.map UInt16.toNat
  mirrors : state.book.Mirrors v.orders
  tallies : ∀ t, state.book.tally t = v.tallies t

theorem refines_fresh : Refines {} {} where
  resolved := rfl
  locate := rfl
  mirrors := ReferenceBook.mirrors_fresh
  tallies := by
    intro t
    cases t <;> rfl

/-- One record: the script never raises, and the view steps with it. -/
theorem Refines.step {state : Replay} {v : SymbolView} (h : state.Refines v)
    {symbol : List UInt8} (hsymbol : symbol.getLast? ≠ some ' '.toUInt8) {f : List UInt8}
    (hf : IsFrame f) (hside : SideOk (frameType f) (frameBody f)) (hok : v.Ok (frameMessage f)) :
    ∃ state', onRecord (ljust 8 symbol) [frameType f] (frameBody f) state = .ok state' ∧
      state'.Refines (v.step symbol (frameMessage f)) := by
  rw [onRecord_frame hf hside hsymbol]
  cases hl : v.locate with
  | none =>
    have hresolved : state.resolved = false := by rw [h.resolved, hl]; rfl
    rw [hresolved, SymbolView.step_unlocated hl]
    cases hannounce : (frameMessage f).announces? symbol with
    | none =>
      exact ⟨state, rfl, h.resolved.trans (by rw [hl]), h.locate.trans (by rw [hl]), h.mirrors,
        h.tallies⟩
    | some l =>
      exact ⟨_, rfl, rfl, rfl, h.mirrors.of_containers rfl fun _ => rfl, h.tallies⟩
  | some l =>
    have hresolved : state.resolved = true := by rw [h.resolved, hl]; rfl
    have hgate : (if some (frameMessage f).stockLocate.toNat = state.book.locate then
        (frameMessage f).action? else none) = (frameMessage f).actionAt? l := by
      rw [h.locate, hl, Message.actionAt?]
      simp only [Option.map_some, Option.some.injEq, UInt16.toNat_inj]
    rw [hgate, if_pos hresolved]
    cases hact : (frameMessage f).actionAt? l with
    | none =>
      rw [SymbolView.step_ignored hl hact]
      exact ⟨state, rfl, h⟩
    | some a =>
      obtain ⟨hadm, hpos⟩ := hok l hl a hact
      obtain ⟨book, happly, hmirrors, hlocate, htally⟩ := h.mirrors.apply hadm hpos
      rw [SymbolView.step_act hl hact]
      refine ⟨{ state with book }, ?_, h.resolved, hlocate.trans h.locate, hmirrors, ?_⟩
      · simp only [happly]
        rfl
      · intro t
        rw [htally, h.tallies]
        rfl

end Replay

end Itch

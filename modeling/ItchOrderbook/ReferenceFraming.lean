import ItchOrderbook.SessionFraming

/-!
# The session loop of the Python references

Both reference scripts read a session with the same loop: two bytes, the record
they declare, a lookup in a dictionary of lengths. There is no check for a zero
length; an empty record has an empty type, which the dictionary does not know.
-/

namespace Itch

open ByteFields CheckedRuns PrefixCode

universe u

/-- The exceptions a script can raise on the way. -/
inductive Raised
  | structError
  | indexError
  | keyError
  | unicodeEncodeError
deriving DecidableEq, Repr

/-- What a script prints when it stops early, with the values it prints. -/
inductive ReferenceError
  | truncatedPrefix (offset : ℕ)
  | truncatedRecord (offset : ℕ)
  | unknownType (messageType : List UInt8) (offset : ℕ)
  | wrongLength (declared : ℕ) (messageType : List UInt8) (offset expected : ℕ)
deriving DecidableEq, Repr

def ReferenceError.offset : ReferenceError → ℕ
  | truncatedPrefix offset => offset
  | truncatedRecord offset => offset
  | unknownType _ offset => offset
  | wrongLength _ _ offset _ => offset

/-- `SPEC_LENGTHS`, keyed by byte strings. -/
def SPEC_LENGTHS : List (List UInt8 × ℕ) :=
  [(['S'.toUInt8], 12), (['R'.toUInt8], 39), (['H'.toUInt8], 25), (['Y'.toUInt8], 20),
   (['L'.toUInt8], 26), (['V'.toUInt8], 35), (['W'.toUInt8], 12), (['K'.toUInt8], 28),
   (['J'.toUInt8], 35), (['h'.toUInt8], 21), (['A'.toUInt8], 36), (['F'.toUInt8], 40),
   (['E'.toUInt8], 31), (['C'.toUInt8], 36), (['X'.toUInt8], 23), (['D'.toUInt8], 19),
   (['U'.toUInt8], 35), (['P'.toUInt8], 44), (['Q'.toUInt8], 40), (['B'.toUInt8], 19),
   (['I'.toUInt8], 50), (['N'.toUInt8], 20)]

/-- `record[i:j]`. -/
def pySlice (record : List UInt8) (i j : ℕ) : List UInt8 := slice record i (j - i)

/-- `struct.unpack` of one big-endian unsigned field of `width` bytes. -/
def unpack (width : ℕ) (bytes : List UInt8) : Except Raised ℕ :=
  if bytes.length = width then .ok (ofBigEndian bytes) else .error .structError

/-- `record[i]`. -/
def pyIndex (record : List UInt8) (i : ℕ) : Except Raised UInt8 :=
  match record[i]? with
  | some b => .ok b
  | none => .error .indexError

/-- `chr` of a byte. -/
def chr (b : UInt8) : Char := Char.ofNat b.toNat

/-- What one pass of the loop reads. -/
inductive Fetched
  | endOfFile
  | failed (error : ReferenceError)
  | record (messageType record : List UInt8) (declared : ℕ) (session : List UInt8)
deriving DecidableEq, Repr

/-- The reads and checks of the loop body; `session` is what the file has left. -/
def fetch (session : List UInt8) (consumed : ℕ) : Except Raised Fetched :=
  let start := session.take 2
  let session := session.drop 2
  if start.length = 0 then .ok .endOfFile
  else if start.length < 2 then .ok (.failed (.truncatedPrefix consumed))
  else do
    let declared ← unpack 2 start
    let record := session.take declared
    let session := session.drop declared
    if record.length < declared then
      return .failed (.truncatedRecord consumed)
    let messageType := pySlice record 0 1
    match SPEC_LENGTHS.lookup messageType with
    | none => return .failed (.unknownType messageType consumed)
    | some expected =>
      if expected ≠ declared then
        return .failed (.wrongLength declared messageType consumed expected)
      return .record messageType record declared session

theorem ofBigEndian_pair (hi lo : UInt8) : ofBigEndian [hi, lo] = declaredLength hi lo := by
  simp [ofBigEndian, ofLittleEndian, Nat.ofDigits_cons, declaredLength]
  omega

/-- Past the prefix a fetch depends on the declared length and the bytes it covers. -/
theorem fetch_pair (hi lo : UInt8) (body : List UInt8) (consumed : ℕ) :
    fetch (hi :: lo :: body) consumed =
      if body.length < declaredLength hi lo then .ok (.failed (.truncatedRecord consumed))
      else
        match SPEC_LENGTHS.lookup ((body.take (declaredLength hi lo)).take 1) with
        | none => .ok (.failed (.unknownType ((body.take (declaredLength hi lo)).take 1) consumed))
        | some expected =>
          if expected ≠ declaredLength hi lo then
            .ok (.failed (.wrongLength (declaredLength hi lo)
              ((body.take (declaredLength hi lo)).take 1) consumed expected))
          else
            .ok (.record ((body.take (declaredLength hi lo)).take 1)
              (body.take (declaredLength hi lo)) (declaredLength hi lo)
              (body.drop (declaredLength hi lo))) := by
  have hunpack : unpack 2 [hi, lo] = .ok (declaredLength hi lo) := by
    rw [unpack, if_pos (by rfl), ofBigEndian_pair]
  have hshort : (body.take (declaredLength hi lo)).length < declaredLength hi lo ↔
      body.length < declaredLength hi lo := by
    rw [List.length_take]
    omega
  change (unpack 2 [hi, lo] >>= fun declared => _) = _
  rw [hunpack]
  change (if (body.take (declaredLength hi lo)).length < declaredLength hi lo then _ else _) = _
  simp only [hshort]
  split
  · rfl
  · change (match SPEC_LENGTHS.lookup ((body.take (declaredLength hi lo)).take 1) with
      | none => _
      | some expected => _) = _
    split
    · rfl
    · split
      · rfl
      · rfl

theorem fetch_shrinks {session messageType record remaining : List UInt8} {consumed declared : ℕ}
    (h : fetch session consumed = .ok (.record messageType record declared remaining)) :
    remaining.length < session.length := by
  match session with
  | [] => cases h
  | [_] => cases h
  | hi :: lo :: body =>
    rw [fetch_pair] at h
    split at h
    · cases h
    · split at h
      · cases h
      · split at h
        · cases h
        · cases h
          simp only [List.length_drop, List.length_cons]
          omega

variable {σ : Type u}

/-- `while True`, with what the scripts do with a record as a parameter; `stop` is the
`limit` of the census. -/
def referenceLoop (onRecord : List UInt8 → List UInt8 → σ → Except Raised σ) (stop : σ → Bool)
    (session : List UInt8) (consumed : ℕ) (state : σ) :
    Except Raised (σ × ℕ × Option ReferenceError) :=
  match _hfetch : fetch session consumed with
  | .error raised => .error raised
  | .ok .endOfFile => .ok (state, consumed, none)
  | .ok (.failed error) => .ok (state, consumed, some error)
  | .ok (.record messageType record declared remaining) =>
    match onRecord messageType record state with
    | .error raised => .error raised
    | .ok state =>
      let consumed := consumed + (2 + declared)
      if stop state then .ok (state, consumed, none)
      else referenceLoop onRecord stop remaining consumed state
termination_by session.length
decreasing_by exact fetch_shrinks _hfetch

/-- The dictionary and the table of the framer say the same of every type byte. -/
theorem lookup_spec (type : UInt8) : SPEC_LENGTHS.lookup [type] =
    if specMessageLength type = 0 then none else some (specMessageLength type).toNat := by
  revert type
  apply forall_byte
  decide +kernel

theorem IsFrame.body_room {f : List UInt8} (hf : IsFrame f) : 11 < (frameBody f).length := by
  rw [hf.body_length]
  exact specMessageLength_header (frameType f) hf.specified

theorem pyIndex_ok {record : List UInt8} {i : ℕ} (h : i < record.length) :
    pyIndex record i = .ok (charAt record i) := by
  simp [pyIndex, charAt, h]

theorem fetch_frame {f : List UInt8} (hf : IsFrame f) (more : List UInt8) (consumed : ℕ) :
    fetch (f ++ more) consumed =
      .ok (.record [frameType f] (frameBody f) (frameBody f).length more) := by
  have hknown := hf.specified
  obtain ⟨hi, lo, type, tail, rfl, hlen, hspec⟩ := hf
  have htype : frameType (hi :: lo :: type :: tail) = type := rfl
  have hbody : frameBody (hi :: lo :: type :: tail) = type :: tail := rfl
  rw [htype] at hknown ⊢
  have htake : (type :: tail ++ more).take (declaredLength hi lo) = type :: tail := by
    rw [← hlen, List.take_left]
  have hdrop : (type :: tail ++ more).drop (declaredLength hi lo) = more := by
    rw [← hlen, List.drop_left]
  have hfits : ¬ (type :: tail ++ more).length < declaredLength hi lo := by
    rw [List.length_append, hlen]
    omega
  rw [List.cons_append, List.cons_append, fetch_pair, if_neg hfits, htake, hdrop, hbody]
  change (match SPEC_LENGTHS.lookup [type] with | none => _ | some expected => _) = _
  rw [lookup_spec, if_neg hknown]
  change (if (specMessageLength type).toNat ≠ declaredLength hi lo then _ else _) = _
  rw [if_neg (not_not.mpr hspec), hlen]
  rfl

/-- A remainder that no frame begins stops the loop where it starts. -/
theorem fetch_stuck {rest : List UInt8} (h : Stuck itchCode rest) (hne : rest ≠ [])
    (consumed : ℕ) :
    ∃ error, fetch rest consumed = .ok (.failed error) ∧ error.offset = consumed := by
  match rest with
  | [] => exact absurd rfl hne
  | [_] => exact ⟨_, rfl, rfl⟩
  | hi :: lo :: body =>
    rw [fetch_pair]
    split
    · exact ⟨_, rfl, rfl⟩
    · rename_i hfits
      cases hlookup : SPEC_LENGTHS.lookup ((body.take (declaredLength hi lo)).take 1) with
      | none => exact ⟨_, rfl, rfl⟩
      | some expected =>
        refine ⟨_, if_pos ?_, rfl⟩
        intro hlen
        have hempty : SPEC_LENGTHS.lookup ([] : List UInt8) = none := rfl
        -- the dictionary knows the type, so the prefix is not zero
        rcases body with _ | ⟨type, tail⟩
        · simp [hempty] at hlookup
        rcases (stuck_iff hi lo (type :: tail)).mp h with hzero | hshort | hmismatch
        · simp [hzero, hempty] at hlookup
        · exact hfits hshort
        · cases hdeclared : declaredLength hi lo with
          | zero => simp [hdeclared, hempty] at hlookup
          | succ n =>
            have htake : ((type :: tail).take (n + 1)).take 1 = [type] := rfl
            rw [hdeclared, htake, lookup_spec] at hlookup
            split at hlookup
            · cases hlookup
            · exact hmismatch ((Option.some.inj hlookup).trans hlen)

theorem referenceLoop_unfold (onRecord : List UInt8 → List UInt8 → σ → Except Raised σ)
    (stop : σ → Bool) (session : List UInt8) (consumed : ℕ) (state : σ) :
    referenceLoop onRecord stop session consumed state =
      match fetch session consumed with
      | .error raised => .error raised
      | .ok .endOfFile => .ok (state, consumed, none)
      | .ok (.failed error) => .ok (state, consumed, some error)
      | .ok (.record messageType record declared remaining) =>
        match onRecord messageType record state with
        | .error raised => .error raised
        | .ok state =>
          if stop state then .ok (state, consumed + (2 + declared), none)
          else referenceLoop onRecord stop remaining (consumed + (2 + declared)) state := by
  rw [referenceLoop]
  split <;> rename_i hfetch <;> rw [hfetch]

/-- The loop is a run over the frames of the session, and what is left over is the error. -/
theorem referenceLoop_eq (onRecord : List UInt8 → List UInt8 → σ → Except Raised σ)
    {frames : List (List UInt8)} {rest session : List UInt8}
    (h : Parses itchCode frames rest session) (consumed : ℕ) (s : σ) :
    ∃ error, (error = none ↔ rest = []) ∧
      (∀ e, error = some e → e.offset = consumed + frames.flatten.length) ∧
      referenceLoop onRecord (fun _ => false) session consumed s =
        (run (fun s f => onRecord [frameType f] (frameBody f) s) s frames).map fun s =>
          (s, consumed + frames.flatten.length, error) := by
  induction frames generalizing session consumed s with
  | nil =>
    have hrest : session = rest := h.eq
    subst hrest
    by_cases hnil : session = []
    · subst hnil
      refine ⟨none, by simp, by simp, ?_⟩
      rw [referenceLoop]
      rfl
    · obtain ⟨error, herror, hoffset⟩ := fetch_stuck h.stuck hnil consumed
      refine ⟨some error, by simp [hnil], ?_, ?_⟩
      · rintro e ⟨⟩
        simpa using hoffset
      · rw [referenceLoop_unfold, herror]
        rfl
  | cons f frames ih =>
    have hf : IsFrame f := h.isWord f List.mem_cons_self
    have hsession : session = f ++ (frames.flatten ++ rest) := by
      rw [h.eq, List.flatten_cons, List.append_assoc]
    subst hsession
    have hbytes : consumed + (2 + (frameBody f).length) + frames.flatten.length =
        consumed + (f :: frames).flatten.length := by
      rw [List.flatten_cons, List.length_append, hf.length, hf.body_length]
      omega
    cases hcall : onRecord [frameType f] (frameBody f) s with
    | error raised =>
      obtain ⟨error, hnone, hoffset, _⟩ := ih h.tail (consumed + (2 + (frameBody f).length)) s
      rw [hbytes] at hoffset
      refine ⟨error, hnone, hoffset, ?_⟩
      rw [referenceLoop_unfold, fetch_frame hf, run_cons_error hcall]
      simp only [hcall]
      rfl
    | ok t =>
      obtain ⟨error, hnone, hoffset, hloop⟩ :=
        ih h.tail (consumed + (2 + (frameBody f).length)) t
      rw [hbytes] at hoffset hloop
      refine ⟨error, hnone, hoffset, ?_⟩
      rw [referenceLoop_unfold, fetch_frame hf, run_cons_ok hcall, ← hloop]
      simp only [hcall, Bool.false_eq_true, if_false]

end Itch

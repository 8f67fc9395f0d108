import ItchOrderbook.CheckedRuns
import ItchOrderbook.Memory
import ItchOrderbook.Ownership

/-!
# Memory maps of session files

A mapped file opens its file, maps it, closes the descriptor on every path, and
unmaps in its destructor; it can be moved and not copied. What the kernel answers
to a call is an input, and a call on a descriptor or a mapping that is not there
is a misuse that stops the program.
-/

namespace Itch

open CheckedRuns Ownership

structure Mapping where
  address : UInt64
  size : UInt64
deriving DecidableEq, Repr

/-- What the calls of the constructor and the destructor can get wrong. -/
inductive Misuse
  | badDescriptor
  | notMapped
  | notAlive
  | alreadyAlive
deriving DecidableEq, Repr

/-- The descriptors open in the process, its mappings, and the last error. -/
structure Kernel where
  descriptors : Finset ℤ := ∅
  mappings : Finset Mapping := ∅
  errno : ℤ := 0

def nullptr : UInt64 := 0

/-- `MAP_FAILED`, which is `(void*)-1`. -/
def MAP_FAILED : UInt64 := UInt64.ofNat (2 ^ 64 - 1)

namespace Kernel

variable (k : Kernel)

/-- `::open` of a path, with the answer of the kernel: a descriptor or an error code. -/
def openPath (answer : Except ℤ ℤ) : Kernel × ℤ :=
  match answer with
  | .ok fd => ({ k with descriptors := insert fd k.descriptors }, fd)
  | .error code => ({ k with errno := code }, -1)

/-- `::fstat`, with the `st_size` it fills in. -/
def fstat (fd : ℤ) (answer : Except ℤ Int64) : Except Misuse (Kernel × ℤ × Int64) :=
  if fd ∈ k.descriptors then
    match answer with
    | .ok size => .ok (k, 0, size)
    | .error code => .ok ({ k with errno := code }, -1, 0)
  else .error .badDescriptor

/-- `::close` releases the descriptor also where it reports an error. -/
def close (fd : ℤ) (answer : Option ℤ) : Except Misuse Kernel :=
  if fd ∈ k.descriptors then
    .ok { k with descriptors := k.descriptors.erase fd, errno := answer.getD k.errno }
  else .error .badDescriptor

/-- `::mmap` of a whole file, anywhere. -/
def mmap (size : UInt64) (fd : ℤ) (answer : Except ℤ UInt64) : Except Misuse (Kernel × UInt64) :=
  if fd ∈ k.descriptors then
    match answer with
    | .ok address => .ok ({ k with mappings := insert ⟨address, size⟩ k.mappings }, address)
    | .error code => .ok ({ k with errno := code }, MAP_FAILED)
  else .error .badDescriptor

/-- `::munmap` of a whole mapping. On one that is there it is taken to succeed: the arguments are
good, and no mapping has to be split. -/
def munmap (address size : UInt64) : Except Misuse Kernel :=
  if ⟨address, size⟩ ∈ k.mappings then
    .ok { k with mappings := k.mappings.erase ⟨address, size⟩ }
  else .error .notMapped

/-- `::madvise`; its answer is not looked at. -/
def madvise (address size : UInt64) (answer : Option ℤ) : Except Misuse Kernel :=
  if ⟨address, size⟩ ∈ k.mappings then .ok { k with errno := answer.getD k.errno }
  else .error .notMapped

end Kernel

/-- What the kernel answers to the calls of one constructor. -/
structure Answers where
  opened : Except ℤ ℤ
  stat : Except ℤ Int64
  mapped : Except ℤ UInt64
  closed : Option ℤ
  advised : Option ℤ

/-- The exceptions of the constructor, with the code and the text they are made from. -/
inductive Thrown
  | systemError (code : ℤ) (what : String)
  | runtimeError (what : String)
deriving DecidableEq, Repr

structure MappedFile where
  data : UInt64 := nullptr
  size : UInt64 := 0
deriving DecidableEq, Repr

namespace MappedFile

/-- The constructor. One that throws leaves no object behind, so no destructor either. -/
def construct (path : String) (answers : Answers) (k : Kernel) :
    Except Misuse (Kernel × Except Thrown MappedFile) := do
  let (k, fd) := k.openPath answers.opened
  if fd < 0 then
    return (k, .error (.systemError k.errno ("open " ++ path)))
  let (k, result, info) ← k.fstat fd answers.stat
  if result ≠ 0 then
    let failure := k.errno
    let k ← k.close fd answers.closed
    return (k, .error (.systemError failure ("fstat " ++ path)))
  if info = 0 then
    let k ← k.close fd answers.closed
    return (k, .error (.runtimeError (path ++ " is empty")))
  let size := info.toUInt64
  let (k, mapping) ← k.mmap size fd answers.mapped
  let mmapFailure := k.errno
  let k ← k.close fd answers.closed
  if mapping = MAP_FAILED then
    return (k, .error (.systemError mmapFailure ("mmap " ++ path)))
  let file := { data := mapping, size }
  let k ← k.madvise mapping file.size answers.advised
  return (k, .ok file)

/-- `munmap` of what the file maps, if it maps anything; the destructor, and the first part of
an assignment. -/
def unmap (file : MappedFile) (k : Kernel) : Except Misuse Kernel :=
  if file.data ≠ nullptr then k.munmap file.data file.size else .ok k

end MappedFile

/-- The objects of a program, by the storage they live in, next to the kernel. -/
structure Process where
  kernel : Kernel
  objects : ℕ → Option MappedFile

/-- What a program can do with mapped files. -/
inductive Lifetime
  | construct (target : ℕ) (path : String) (answers : Answers)
  | moveConstruct (target source : ℕ)
  | moveAssign (target source : ℕ)
  | bytes (target : ℕ)
  | destroy (target : ℕ)

namespace Process

/-- A live object. -/
def object (p : Process) (target : ℕ) : Except Misuse MappedFile :=
  match p.objects target with
  | some file => .ok file
  | none => .error .notAlive

/-- Storage for a new object. -/
def free (p : Process) (target : ℕ) : Except Misuse Unit :=
  match p.objects target with
  | some _ => .error .alreadyAlive
  | none => .ok ()

def put (p : Process) (target : ℕ) (file : Option MappedFile) : Process :=
  { p with objects := Function.update p.objects target file }

/-- One operation. Reading `bytes` touches all of the span. -/
def step (p : Process) : Lifetime → Except Misuse Process
  | .construct target path answers => do
    p.free target
    let (kernel, result) ← MappedFile.construct path answers p.kernel
    match result with
    | .ok file => return { p with kernel }.put target (some file)
    | .error _ => return { p with kernel }
  | .moveConstruct target source => do
    p.free target
    let other ← p.object source
    return (p.put source (some {})).put target (some other)
  | .moveAssign target source => do
    let file ← p.object target
    let other ← p.object source
    if target = source then return p
    let kernel ← file.unmap p.kernel
    return ({ p with kernel }.put source (some {})).put target (some other)
  | .bytes target => do
    let file ← p.object target
    if file.size ≠ 0 ∧ ⟨file.data, file.size⟩ ∉ p.kernel.mappings then .error .notMapped
    else return p
  | .destroy target => do
    let file ← p.object target
    let kernel ← file.unmap p.kernel
    return { p with kernel }.put target none

end Process

/-- What the kernel may answer: a descriptor that is not open, and a mapping that is neither
null nor the failure value nor one of those there. -/
structure Kernel.Permits (k : Kernel) (answers : Answers) : Prop where
  descriptor : ∀ fd, answers.opened = .ok fd → 0 ≤ fd ∧ fd ∉ k.descriptors
  mapping : ∀ address, answers.mapped = .ok address →
    address ≠ nullptr ∧ address ≠ MAP_FAILED ∧ ∀ size, ⟨address, size⟩ ∉ k.mappings

/-- The exception for these answers: the code is that of the call that failed. -/
def Answers.thrown? (answers : Answers) (path : String) : Option Thrown :=
  match answers.opened, answers.stat, answers.mapped with
  | .error code, _, _ => some (.systemError code ("open " ++ path))
  | .ok _, .error code, _ => some (.systemError code ("fstat " ++ path))
  | .ok _, .ok size, mapped =>
    if size = 0 then some (.runtimeError (path ++ " is empty"))
    else match mapped with
      | .error code => some (.systemError code ("mmap " ++ path))
      | .ok _ => none

namespace Kernel

variable {k : Kernel} {fd : ℤ} {address size : UInt64}

theorem fstat_ok (h : fd ∈ k.descriptors) (info : Int64) :
    k.fstat fd (.ok info) = .ok (k, 0, info) := if_pos h

theorem fstat_error (h : fd ∈ k.descriptors) (code : ℤ) :
    k.fstat fd (.error code) = .ok ({ k with errno := code }, -1, 0) := if_pos h

theorem mmap_ok (h : fd ∈ k.descriptors) (size address : UInt64) :
    k.mmap size fd (.ok address) =
      .ok ({ k with mappings := insert ⟨address, size⟩ k.mappings }, address) := if_pos h

theorem mmap_error (h : fd ∈ k.descriptors) (size : UInt64) (code : ℤ) :
    k.mmap size fd (.error code) = .ok ({ k with errno := code }, MAP_FAILED) := if_pos h

theorem close_ok (h : fd ∈ k.descriptors) (answer : Option ℤ) :
    k.close fd answer =
      .ok { k with descriptors := k.descriptors.erase fd, errno := answer.getD k.errno } := if_pos h

theorem munmap_ok (h : ⟨address, size⟩ ∈ k.mappings) : k.munmap address size =
    .ok { k with mappings := k.mappings.erase ⟨address, size⟩ } := if_pos h

theorem madvise_ok (h : ⟨address, size⟩ ∈ k.mappings) (answer : Option ℤ) :
    k.madvise address size answer = .ok { k with errno := answer.getD k.errno } := if_pos h

end Kernel

namespace MappedFile

/-- What a file maps, if it maps anything. -/
def mapping? (file : MappedFile) : Option Mapping :=
  if file.data ≠ nullptr then some ⟨file.data, file.size⟩ else none

/-- The constructor on any answers: the descriptor is closed on every path, and what is mapped
is new and belongs to the file. -/
theorem construct_spec (path : String) {answers : Answers} {k : Kernel} (h : k.Permits answers) :
    ∃ k' result, construct path answers k = .ok (k', result) ∧
      k'.descriptors = k.descriptors ∧
      match answers.thrown? path with
      | some thrown => result = .error thrown ∧ k'.mappings = k.mappings
      | none => ∃ file m, result = .ok file ∧ file.mapping? = some m ∧ m ∉ k.mappings ∧
          k'.mappings = insert m k.mappings := by
  cases hopen : answers.opened with
  | error code =>
    have hthrown : answers.thrown? path = some (.systemError code ("open " ++ path)) := by
      simp only [Answers.thrown?, hopen]
    rw [construct, hopen, hthrown]
    exact ⟨_, _, rfl, rfl, rfl, rfl⟩
  | ok fd =>
    obtain ⟨hfd, hnew⟩ := h.descriptor fd hopen
    have hopened : fd ∈ insert fd k.descriptors := Finset.mem_insert_self fd k.descriptors
    have herased : (insert fd k.descriptors).erase fd = k.descriptors := Finset.erase_insert hnew
    have hfailed : (-1 : ℤ) ≠ 0 := by decide
    have hsucceeded : ¬ (0 : ℤ) ≠ 0 := not_not.mpr rfl
    rw [construct, hopen]
    dsimp only [Kernel.openPath]
    rw [if_neg (not_lt.mpr hfd)]
    cases hstat : answers.stat with
    | error code =>
      have hthrown : answers.thrown? path = some (.systemError code ("fstat " ++ path)) := by
        simp only [Answers.thrown?, hopen, hstat]
      rw [hthrown, Kernel.fstat_error hopened, ok_bind, if_pos hfailed, Kernel.close_ok hopened]
      exact ⟨_, _, rfl, herased, rfl, rfl⟩
    | ok info =>
      rw [Kernel.fstat_ok hopened, ok_bind, if_neg hsucceeded]
      by_cases hempty : info = 0
      · have hthrown : answers.thrown? path = some (.runtimeError (path ++ " is empty")) := by
          simp only [Answers.thrown?, hopen, hstat, hempty, if_true]
        rw [hthrown, if_pos hempty, Kernel.close_ok hopened]
        exact ⟨_, _, rfl, herased, rfl, rfl⟩
      · rw [if_neg hempty]
        cases hmap : answers.mapped with
        | error code =>
          have hthrown : answers.thrown? path = some (.systemError code ("mmap " ++ path)) := by
            simp only [Answers.thrown?, hopen, hstat, hmap, if_neg hempty]
          rw [hthrown, Kernel.mmap_error hopened, ok_bind, Kernel.close_ok hopened, ok_bind,
            if_pos rfl]
          exact ⟨_, _, rfl, herased, rfl, rfl⟩
        | ok address =>
          obtain ⟨hnull, hsound, hfresh⟩ := h.mapping address hmap
          have hthrown : answers.thrown? path = none := by
            simp only [Answers.thrown?, hopen, hstat, hmap, if_neg hempty]
          rw [hthrown, Kernel.mmap_ok hopened, ok_bind, Kernel.close_ok hopened, ok_bind,
            if_neg hsound, Kernel.madvise_ok (Finset.mem_insert_self _ _)]
          exact ⟨_, _, rfl, herased, _, _, rfl, if_pos hnull, hfresh _, rfl⟩

end MappedFile

/-- The storage an operation is about. -/
def Lifetime.names : Lifetime → List ℕ
  | construct target _ _ => [target]
  | moveConstruct target source => [target, source]
  | moveAssign target source => [target, source]
  | bytes target => [target]
  | destroy target => [target]

namespace Process

/-- The operation respects lifetimes, and the kernel answers as it may. -/
def Enabled (p : Process) : Lifetime → Prop
  | .construct target _ answers => p.objects target = none ∧ p.kernel.Permits answers
  | .moveConstruct target source => p.objects target = none ∧ (p.objects source).isSome
  | .moveAssign target source => (p.objects target).isSome ∧ (p.objects source).isSome
  | .bytes target => (p.objects target).isSome
  | .destroy target => (p.objects target).isSome

/-- The mapping of an object. -/
def holds (p : Process) (target : ℕ) : Option Mapping :=
  (p.objects target).bind MappedFile.mapping?

@[simp] theorem objects_put_self (p : Process) (target : ℕ) (file : Option MappedFile) :
    (p.put target file).objects target = file := Function.update_self ..

theorem objects_put_of_ne (p : Process) {target x : ℕ} (hne : x ≠ target)
    (file : Option MappedFile) : (p.put target file).objects x = p.objects x :=
  Function.update_of_ne hne _ _

theorem put_put_put (p : Process) {target source : ℕ} (hne : target ≠ source)
    (before between after : Option MappedFile) :
    ((p.put target before).put source between).put target after =
      (p.put source between).put target after := by
  rw [put, put, put, put, put, Function.update_comm hne, Function.update_idem]

theorem holds_put (p : Process) (target : ℕ) (file : Option MappedFile) :
    (p.put target file).holds =
      Function.update p.holds target (file.bind MappedFile.mapping?) := by
  funext other
  by_cases heq : other = target
  · subst heq
    simp [holds, put]
  · simp [holds, put, heq]

/-- Every mapping that is not from outside belongs to one object, no descriptor is open that was
not open before, and an object that maps nothing has no bytes. -/
structure Owned (outside : Kernel) (p : Process) : Prop where
  mappings : Exclusive outside.mappings p.holds p.kernel.mappings
  descriptors : p.kernel.descriptors = outside.descriptors
  bytes : ∀ target file, p.objects target = some file → file.data = nullptr → file.size = 0

section Step

variable {outside : Kernel} {p : Process}

theorem mapping?_moved : MappedFile.mapping? {} = none := if_neg (not_not.mpr rfl)

/-- What a file has bytes of is mapped. -/
theorem Owned.live (h : p.Owned outside) {target : ℕ} {file : MappedFile}
    (hfile : p.objects target = some file) (hsize : file.size ≠ 0) :
    ⟨file.data, file.size⟩ ∈ p.kernel.mappings := by
  apply h.mappings.live_of_held (o := target)
  rw [holds, hfile, Option.bind_some, MappedFile.mapping?, if_pos]
  exact fun hnull => hsize (h.bytes target file hfile hnull)

/-- The condition on the bytes, after one object is put in place. -/
theorem Owned.bytes_put (h : p.Owned outside) {target : ℕ} {after : Option MappedFile}
    (hafter : ∀ file ∈ after, file.data = nullptr → file.size = 0) (other : ℕ)
    (file : MappedFile) (hfile : (p.put target after).objects other = some file)
    (hnull : file.data = nullptr) : file.size = 0 := by
  by_cases heq : other = target
  · subst heq
    rw [objects_put_self] at hfile
    exact hafter file hfile hnull
  · rw [objects_put_of_ne p heq] at hfile
    exact h.bytes other file hfile hnull

/-- The end of what a live object maps, with nothing or a moved-from file in its place. -/
theorem Owned.unmap (h : p.Owned outside) {target : ℕ} {file : MappedFile}
    (hfile : p.objects target = some file) (after : Option MappedFile)
    (hafter : ∀ file ∈ after, file = {}) : ∃ kernel, file.unmap p.kernel = .ok kernel ∧
      Owned outside ({ p with kernel }.put target after) := by
  have hheld : p.holds target = file.mapping? := by rw [holds, hfile, Option.bind_some]
  have hnothing : after.bind MappedFile.mapping? = none := by
    cases after with
    | none => rfl
    | some file => rw [hafter file rfl, Option.bind_some, mapping?_moved]
  have hbytes : ∀ file ∈ after, file.data = nullptr → file.size = 0 := by
    intro file hmem _
    rw [hafter file hmem]
  rw [MappedFile.unmap]
  by_cases hnull : file.data = nullptr
  · have hsame : Function.update p.holds target none = p.holds :=
      Function.update_eq_self_iff.mpr (by rw [hheld, MappedFile.mapping?, if_neg (by simp [hnull])])
    rw [if_neg (not_not.mpr hnull)]
    refine ⟨p.kernel, rfl, ?_, h.descriptors, h.bytes_put hbytes⟩
    rw [holds_put, hnothing, hsame]
    exact h.mappings
  · rw [MappedFile.mapping?, if_pos hnull] at hheld
    rw [if_pos hnull, Kernel.munmap_ok (h.mappings.live_of_held hheld)]
    refine ⟨_, rfl, ?_, h.descriptors, h.bytes_put hbytes⟩
    rw [holds_put, hnothing]
    exact h.mappings.release hheld

/-- A move to an object that maps nothing. -/
theorem Owned.move (h : p.Owned outside) {target source : ℕ} {file : MappedFile}
    (hne : target ≠ source) (hfree : p.holds target = none)
    (hfile : p.objects source = some file) :
    Owned outside ((p.put source (some {})).put target (some file)) where
  mappings := by
    have hheld : p.holds source = file.mapping? := by rw [holds, hfile, Option.bind_some]
    rw [holds_put, holds_put, Option.bind_some, Option.bind_some, mapping?_moved, ← hheld]
    exact h.mappings.transfer hne hfree
  descriptors := h.descriptors
  bytes := by
    intro x other hother hnull
    by_cases hx : x = target
    · subst hx
      rw [objects_put_self] at hother
      obtain rfl := Option.some.inj hother
      exact h.bytes source file hfile hnull
    · rw [objects_put_of_ne _ hx] at hother
      refine h.bytes_put ?_ x other hother hnull
      rintro _ ⟨⟩ _
      rfl

/-- Any operation that respects lifetimes succeeds and keeps the ownership; objects it is not
about stay as they are. -/
theorem Owned.step (h : p.Owned outside) {op : Lifetime} (hop : p.Enabled op) :
    ∃ p', p.step op = .ok p' ∧ p'.Owned outside ∧
      ∀ x, x ∉ op.names → p'.objects x = p.objects x := by
  cases op with
  | construct target path answers =>
    obtain ⟨hfree, hpermits⟩ := hop
    obtain ⟨kernel, result, hconstruct, hdescriptors, hresult⟩ :=
      MappedFile.construct_spec path hpermits
    have hunheld : p.holds target = none := by rw [holds, hfree, Option.bind_none]
    rw [Process.step, free, hfree, ok_bind, hconstruct, ok_bind]
    cases hthrown : answers.thrown? path with
    | some thrown =>
      rw [hthrown] at hresult
      obtain ⟨rfl, hmappings⟩ := hresult
      refine ⟨_, rfl, ⟨?_, hdescriptors.trans h.descriptors, h.bytes⟩, fun _ _ => rfl⟩
      change Exclusive outside.mappings p.holds kernel.mappings
      rw [hmappings]
      exact h.mappings
    | none =>
      rw [hthrown] at hresult
      obtain ⟨file, m, rfl, hmapping, hnew, hmappings⟩ := hresult
      refine ⟨_, rfl, ⟨?_, hdescriptors.trans h.descriptors, h.bytes_put ?_⟩, ?_⟩
      · rw [holds_put, Option.bind_some, hmapping]
        change Exclusive outside.mappings _ kernel.mappings
        rw [hmappings]
        exact h.mappings.acquire hunheld hnew
      · rintro _ ⟨⟩ hnull
        rw [MappedFile.mapping?, if_neg (not_not.mpr hnull)] at hmapping
        cases hmapping
      · intro x hx
        exact objects_put_of_ne _ (List.ne_of_not_mem_cons hx) _
  | moveConstruct target source =>
    obtain ⟨hfree, hsome⟩ := hop
    obtain ⟨file, hfile⟩ := Option.isSome_iff_exists.mp hsome
    have hne : target ≠ source := by
      rintro rfl
      rw [hfree] at hfile
      cases hfile
    have hunheld : p.holds target = none := by rw [holds, hfree, Option.bind_none]
    rw [Process.step, free, hfree, ok_bind, object, hfile, ok_bind]
    refine ⟨_, rfl, h.move hne hunheld hfile, fun x hx => ?_⟩
    simp only [Lifetime.names, List.mem_cons, List.not_mem_nil, or_false, not_or] at hx
    rw [objects_put_of_ne _ hx.1, objects_put_of_ne _ hx.2]
  | moveAssign target source =>
    obtain ⟨hsome, hother⟩ := hop
    obtain ⟨file, hfile⟩ := Option.isSome_iff_exists.mp hsome
    obtain ⟨other, hother⟩ := Option.isSome_iff_exists.mp hother
    rw [Process.step, object, hfile, ok_bind, object, hother, ok_bind]
    by_cases heq : target = source
    · rw [if_pos heq]
      exact ⟨p, rfl, h, fun _ _ => rfl⟩
    · obtain ⟨kernel, hunmap, howned⟩ := h.unmap hfile (some {}) (by rintro _ ⟨⟩; rfl)
      rw [if_neg heq, hunmap, ok_bind]
      have hunheld : ({ p with kernel }.put target (some {})).holds target = none := by
        rw [holds, objects_put_self, Option.bind_some, mapping?_moved]
      have hstill : ({ p with kernel }.put target (some {})).objects source = some other := by
        rw [objects_put_of_ne _ (Ne.symm heq), hother]
      have hmoved := howned.move heq hunheld hstill
      rw [put_put_put _ heq] at hmoved
      refine ⟨_, rfl, hmoved, fun x hx => ?_⟩
      simp only [Lifetime.names, List.mem_cons, List.not_mem_nil, or_false, not_or] at hx
      rw [objects_put_of_ne _ hx.1, objects_put_of_ne _ hx.2]
  | bytes target =>
    obtain ⟨file, hfile⟩ := Option.isSome_iff_exists.mp hop
    rw [Process.step, object, hfile, ok_bind, if_neg]
    · exact ⟨p, rfl, h, fun _ _ => rfl⟩
    · rintro ⟨hsize, hunmapped⟩
      exact hunmapped (h.live hfile hsize)
  | destroy target =>
    obtain ⟨file, hfile⟩ := Option.isSome_iff_exists.mp hop
    obtain ⟨kernel, hunmap, howned⟩ := h.unmap hfile none (by rintro _ ⟨⟩)
    rw [Process.step, object, hfile, ok_bind, hunmap, ok_bind]
    exact ⟨_, rfl, howned, fun x hx => objects_put_of_ne _ (List.ne_of_not_mem_cons hx) _⟩

end Step

/-- A program that has only outside mappings and no objects. -/
def start (kernel : Kernel) : Process := { kernel, objects := fun _ => none }

theorem owned_start (kernel : Kernel) : (start kernel).Owned kernel where
  mappings := Exclusive.nothing_held kernel.mappings
  descriptors := rfl
  bytes := by
    rintro target file ⟨⟩

/-- What a run does not name stays as it is. -/
theorem Owned.run {outside : Kernel} {p : Process} (h : p.Owned outside) {ops : List Lifetime}
    (hops : Along Process.step Enabled p ops) :
    ∃ p', CheckedRuns.run Process.step p ops = .ok p' ∧ p'.Owned outside ∧
      ∀ x, (∀ op ∈ ops, x ∉ op.names) → p'.objects x = p.objects x := by
  induction ops generalizing p with
  | nil => exact ⟨p, rfl, h, fun _ _ => rfl⟩
  | cons op ops ih =>
    obtain ⟨q, hq, howned, hframe⟩ := h.step hops.1
    obtain ⟨p', hp', howned', hframe'⟩ := ih howned ((along_cons_ok hq ops).mp hops).2
    refine ⟨p', (run_cons_ok hq ops).trans hp', howned', fun x hx => ?_⟩
    rw [hframe' x fun op hop => hx op (List.mem_cons_of_mem _ hop),
      hframe x (hx op List.mem_cons_self)]

/-- Over any run that respects lifetimes, whichever calls of the constructors fail, nothing is
unmapped or closed twice and no descriptor stays open. Each mapping made belongs to one object;
when all objects are destroyed, none is left. And the bytes of an object stay mapped, where they
were, for as long as nothing is done to the object. -/
theorem mapped_files_owned (kernel : Kernel) (before later : List Lifetime)
    (h : Along step Enabled (start kernel) (before ++ later)) :
    ∃ p p', run step (start kernel) before = .ok p ∧ run step p later = .ok p' ∧
      p'.kernel.descriptors = kernel.descriptors ∧
      Exclusive kernel.mappings p'.holds p'.kernel.mappings ∧
      ((∀ x, p'.objects x = none) → p'.kernel.mappings = kernel.mappings) ∧
      ∀ x file, p.objects x = some file → (∀ op ∈ later, x ∉ op.names) →
        p'.objects x = some file ∧
          (file.size ≠ 0 → ⟨file.data, file.size⟩ ∈ p'.kernel.mappings) := by
  obtain ⟨hbefore, hlater⟩ := along_append.mp h
  obtain ⟨p, hp, howned, -⟩ := (owned_start kernel).run hbefore
  obtain ⟨p', hp', howned', hframe⟩ := howned.run (hlater p hp)
  refine ⟨p, p', hp, hp', howned'.descriptors, howned'.mappings, fun hnone => ?_,
    fun x file hfile hunnamed => ?_⟩
  · refine howned'.mappings.nothing_left fun x => ?_
    rw [holds, hnone x, Option.bind_none]
  · have hkept := (hframe x hunnamed).trans hfile
    exact ⟨hkept, howned'.live hkept⟩

/-- A file that is mapped and read, and a second one that cannot be mapped; the first is left as
it is. -/
theorem mapped_files_owned_second_fails :
    ∃ p p', run step (start {})
        [.construct 0 "first" ⟨.ok 3, .ok 10, .ok 4096, none, none⟩, .bytes 0] = .ok p ∧
      run step p [.construct 1 "second" ⟨.ok 3, .ok 20, .error 12, some 4, none⟩] = .ok p' ∧
      p'.kernel.descriptors = ∅ ∧
      Exclusive ∅ p'.holds p'.kernel.mappings ∧
      ((∀ x, p'.objects x = none) → p'.kernel.mappings = ∅) ∧
      ∀ x file, p.objects x = some file →
        (∀ op ∈ [.construct 1 "second" ⟨.ok 3, .ok 20, .error 12, some 4, none⟩],
          x ∉ Lifetime.names op) →
        p'.objects x = some file ∧
          (file.size ≠ 0 → ⟨file.data, file.size⟩ ∈ p'.kernel.mappings) := by
  refine mapped_files_owned {} [_, _] [_] ⟨⟨rfl, ?_, ?_⟩, rfl, ⟨rfl, ?_, ?_⟩, trivial⟩
  · rintro fd ⟨⟩
    decide
  · rintro address ⟨⟩
    exact ⟨by decide, by decide, fun size => Finset.notMem_empty _⟩
  · rintro fd ⟨⟩
    decide
  · rintro address ⟨⟩

end Process

end Itch

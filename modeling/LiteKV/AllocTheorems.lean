/-
LiteKV.AllocTheorems — a failed write and the store.

`KVContainer.raw` is a container with every object intact. On it each
writing operation ends in one of two ways: `Done` says that the result is
intact again, and is the container as it was or as the operation of
`LiteKV.Core` leaves it; what is not done is one of three calls. `SetString`
has freed a collection, `ListPushAux` reads through an empty pointer, and
`Append` leaves `errcode` unassigned. `Safe` says when a call is none of
them, and is exact.
-/
import LiteKV.Alloc

namespace LiteKV

open Lib Lib.Run Lib.AssocList Lib.Buckets

/-! ## Intact containers -/

/-- The pointer to a payload. -/
def Payload.ptr : Payload → Ptr
  | .int v => .word v
  | .string s => .string s
  | .list o => .list o
  | .hash o => .hash o
  | .set o => .set o

/-- An object with the content its type says. -/
def ValueObject.raw (obj : ValueObject) : RawObject :=
  ⟨obj.payload.objectType, obj.lvTime, obj.payload.ptr⟩

/-- A container of such objects. -/
def KVContainer.raw (h : KVContainer) : RawContainer :=
  { bucket := h.bucket.map fun b => b.map fun e => (e.1, some e.2.raw)
    keysPool := h.keysPool }

theorem bucketAt_raw (h : KVContainer) (i : Nat) :
    bucketAt h.raw.bucket i = (bucketAt h.bucket i).map fun e => (e.1, some e.2.raw) := by
  rw [bucketAt, KVContainer.raw, List.getElem?_map, bucketAt]
  cases h.bucket[i]? <;> rfl

theorem find_raw (h : KVContainer) (key : Key) :
    h.raw.find key = (h.find key).map fun obj => some obj.raw := by
  rw [RawContainer.find, bucketAt_raw, List.find?_map, Option.map_map, KVContainer.find,
    Option.map_map]
  rfl

theorem insertNew_raw (h : KVContainer) (key : Key) (obj : ValueObject) :
    h.raw.insertNew key (some obj.raw) = (h.insertNew key obj).raw := by
  rw [RawContainer.insertNew, bucketAt_raw]
  simp only [KVContainer.raw, KVContainer.insertNew, List.map_set, List.map_cons]

theorem modify_raw (h : KVContainer) (key : Key) (obj : ValueObject) :
    h.raw.modify key (some obj.raw) = (h.modify key obj).raw := by
  rw [RawContainer.modify, bucketAt_raw]
  simp only [KVContainer.raw, KVContainer.modify, List.map_set, List.map_map]
  congr 2
  refine List.map_congr_left fun e _ => ?_
  simp only [Function.comp]
  split <;> rfl

/-- Changing the object of a new entry. -/
theorem insertNew_modify {h : KVContainer} (hok : h.Ok) {key : Key} (hf : h.find key = none)
    (x y : RawObjectPtr) :
    (h.raw.insertNew key x).modify key y = h.raw.insertNew key y := by
  have hi : KVContainer.bucketIdx key < h.raw.bucket.length := by
    rw [KVContainer.raw, List.length_map]
    exact hok.placed.inRange key
  have hself : key.eq key = true := by simp [StaticString.eq]
  have hother : ∀ e ∈ bucketAt h.raw.bucket (KVContainer.bucketIdx key), e.1.eq key = false := by
    intro e he
    have hnone : h.raw.find key = none := by rw [find_raw, hf]; rfl
    rw [RawContainer.find, Option.map_eq_none_iff, List.find?_eq_none] at hnone
    simpa using hnone e he
  simp only [RawContainer.modify, RawContainer.insertNew, bucketAt_set hi, if_true, List.set_set,
    List.map_cons, hself]
  congr 3
  refine (List.map_congr_left fun e he => ?_).trans (List.map_id _)
  rw [hother e he]
  rfl

/-- The tag of a value. -/
def Value.objectType : Value → UInt8
  | .int _ => 1
  | .string _ => 2
  | .list _ => 3
  | .hash _ => 4
  | .set _ => 5

/-- What a pointer points to; nothing for null. -/
def Ptr.value : Ptr → Option Value
  | .null => none
  | .word v => some (.int v)
  | .string s => some (.string s)
  | .list o => some (.list o.toList)
  | .hash o => some (.hash o.lookup)
  | .set o => some (.set o.contains)

namespace RawContainer

/-- What is under a key: nothing, an empty `shared_ptr`, or an object's type and
what its pointer points to. -/
def holds (s : RawContainer) (key : Key) : Option (Option (UInt8 × Option Value)) :=
  (s.find key).map fun slot => slot.map fun obj => (obj.type, obj.ptr.value)

/-- No object has a type that needs a content and no content. -/
def NoNullPayload (s : RawContainer) : Prop :=
  ∀ e ∈ s.bucket.flatten, ∀ obj, e.2 = some obj → obj.type ≠ 1 → obj.ptr.value.isSome

end RawContainer

theorem holds_raw (h : KVContainer) (key : Key) :
    h.raw.holds key = (h.view key).map fun v => some (v.objectType, some v) := by
  have hobj :
      ∀ p : Payload, (p.objectType, p.ptr.value) = (p.toValue.objectType, some p.toValue) := by
    intro p
    cases p <;> rfl
  rw [RawContainer.holds, find_raw, KVContainer.view]
  cases h.find key with
  | none => rfl
  | some obj => exact congrArg (fun x => some (some x)) (hobj obj.payload)

theorem noNullPayload_raw (h : KVContainer) : h.raw.NoNullPayload := by
  intro e he obj heq _
  rw [KVContainer.raw] at he
  obtain ⟨b, hb, he⟩ := List.mem_flatten.mp he
  obtain ⟨b', -, rfl⟩ := List.mem_map.mp hb
  obtain ⟨e', -, rfl⟩ := List.mem_map.mp he
  obtain rfl : e'.2.raw = obj := Option.some.inj heq
  rw [ValueObject.raw]
  cases e'.2.payload <;> rfl

/-! ## Calls that fail -/

namespace Report

/-- The call reports a failure: `false`, or an `errcode` that is not `kOkCode`. -/
def Fails (r : Report) : Prop := r.ret = .bool false ∨ ∃ code, r.code = some code ∧ code ≠ .ok

/-- The call has failed: an allocation did, or it returns `false`. -/
def Failed (r : Report) : Prop := r.allocFailed = true ∨ r.ret = .bool false

/-- A call that has failed says so, and never with `kOkCode`. -/
def Honest (r : Report) : Prop := r.Failed → r.Fails ∧ r.code ≠ some .ok

instance (r : Report) : Decidable r.Failed := inferInstanceAs (Decidable (_ ∨ _))

end Report

/-- **The property of a write**: it does not run into a null pointer, a failure it
reports has changed nothing and left no type without content, and a failure is
reported as one. -/
def LeavesStore (s : RawContainer) : WriteResult → Prop
  | .error _ => False
  | .ok (s', r) =>
      (r.Fails → (∀ key, s'.holds key = s.holds key) ∧ s'.keysPool = s.keysPool ∧
        s'.NoNullPayload) ∧ r.Honest

/-- The `new(std::nothrow)` of the call gives null. -/
def Call.newFails (c : Call) : Prop := c.outcomes.head? = some false

/-- One of the two allocations of a `Construct...ObjPtr` fails. -/
def Call.constructFails (c : Call) : Prop := false ∈ c.outcomes.take 2

/-- A call that does not take one of the three branches that go wrong: `SetString`
on a collection whose new string is not allocated, a push to a new list that is
not allocated, and `Append` to an integer whose string is not allocated, with
`kOkCode` in the caller's `errcode`. -/
def Write.Safe (h : KVContainer) (c : Call) : Write → Prop
  | .setString key _ => c.newFails → ∀ v, h.view (.ofStdString key) = some v →
      v.objectType = 1 ∨ v.objectType = 2
  | .append key _ => c.newFails → c.errcode = .ok → ∀ v, h.view (.ofStdString key) = some v →
      v.objectType ≠ 1
  | .listPush key _ _ => c.constructFails → h.view (.ofStdString key) ≠ none
  | .listPushVector key _ _ => c.constructFails → h.view (.ofStdString key) ≠ none
  | _ => True

/-! ## What a call does on an intact container -/

/-- The result is an intact container: `h'`, or `h` itself when an allocation
failed. -/
structure DoneBy (h h' : KVContainer) (k : KVContainer) (r : Report) : Prop where
  state : k = h' ∨ (r.allocFailed = true ∧ k = h)
  unchanged : r.Fails → k.view = h.view ∧ k.keysPool = h.keysPool
  honest : r.Honest

def Done (h h' : KVContainer) (result : WriteResult) : Prop :=
  ∃ k r, result = .ok (k.raw, r) ∧ DoneBy h h' k r

theorem Done.leavesStore {h h' : KVContainer} {result : WriteResult} (hd : Done h h' result) :
    LeavesStore h.raw result := by
  obtain ⟨k, r, rfl, hk⟩ := hd
  refine ⟨fun hf => ⟨fun key => ?_, (hk.unchanged hf).2, noNullPayload_raw k⟩, hk.honest⟩
  rw [holds_raw, holds_raw, (hk.unchanged hf).1]

section

variable {h h' : KVContainer}

/-- A call whose allocation fails changes nothing and says so. -/
theorem done_failed {r : Report} (hr : r.Honest) (halloc : r.allocFailed = true) :
    Done h h' (.ok (h.raw, r)) := ⟨h, r, rfl, .inr ⟨halloc, rfl⟩, fun _ => ⟨rfl, rfl⟩, hr⟩

/-- A call that is refused. -/
theorem done_refused {r : Report} (hr : r.Honest) : Done h h (.ok (h.raw, r)) :=
  ⟨h, r, rfl, .inl rfl, fun _ => ⟨rfl, rfl⟩, hr⟩

/-- A call that reports a success. -/
theorem done_ok {s : RawContainer} {r : Report} (hs : s = h'.raw) (hret : r.ret ≠ .bool false)
    (hcode : r.code = none ∨ r.code = some .ok) (halloc : r.allocFailed = false) :
    Done h h' (.ok (s, r)) := by
  have hnot : ¬ r.Fails := by
    rintro (hf | ⟨code, hc, hne⟩)
    · exact hret hf
    · rcases hcode with hn | ho
      · rw [hn] at hc
        cases hc
      · rw [ho, Option.some.injEq] at hc
        exact hne hc.symm
  refine ⟨h', r, by rw [hs], .inl rfl, fun hf => absurd hf hnot, ?_⟩
  rintro (hf | hf)
  · rw [halloc] at hf
    cases hf
  · exact absurd hf hret

end

/-! ## Allocations -/

section

variable (c : Call)

/-- The allocations of a call, before it makes one. -/
def Call.allocs : Allocs := ⟨c.outcomes, false⟩

theorem next_spec : (c.newFails ∧ c.allocs.next.1 = false ∧ c.allocs.next.2.failed = true) ∨
    (¬ c.newFails ∧ c.allocs.next.1 = true ∧ c.allocs.next.2.failed = false) := by
  obtain ⟨now, outcomes, errcode⟩ := c
  cases outcomes with
  | nil => exact .inr ⟨by simp [Call.newFails], rfl, rfl⟩
  | cons b bs =>
      cases b with
      | false => exact .inl ⟨rfl, rfl, rfl⟩
      | true => exact .inr ⟨by simp [Call.newFails], rfl, rfl⟩

theorem constructIntObjPtr_spec (now : Nat) (intval : Int64) :
    ((constructIntObjPtr c.allocs now intval).1 = none ∧
      (constructIntObjPtr c.allocs now intval).2.failed = true) ∨
    ((constructIntObjPtr c.allocs now intval).1 = some (ValueObject.raw ⟨.int intval, now⟩) ∧
      (constructIntObjPtr c.allocs now intval).2.failed = false) := by
  rcases next_spec c with ⟨-, hb, hf⟩ | ⟨-, hb, hf⟩
  · exact .inl ⟨by simp [constructIntObjPtr, hb], hf⟩
  · refine .inr ⟨?_, hf⟩
    simp only [constructIntObjPtr, hb, if_true]
    rfl

/-- The other four. -/
theorem constructObjPtr_spec (p : Payload) (now : Nat) :
    (c.constructFails ∧ (constructObjPtr p.objectType p.ptr c.allocs now).1 = none ∧
      (constructObjPtr p.objectType p.ptr c.allocs now).2.failed = true) ∨
    (¬ c.constructFails ∧
      (constructObjPtr p.objectType p.ptr c.allocs now).1 = some (ValueObject.raw ⟨p, now⟩) ∧
      (constructObjPtr p.objectType p.ptr c.allocs now).2.failed = false) := by
  obtain ⟨t, outcomes, errcode⟩ := c
  cases outcomes with
  | nil => exact .inr ⟨by simp [Call.constructFails], rfl, rfl⟩
  | cons b bs =>
      cases b with
      | false => exact .inl ⟨by simp [Call.constructFails], rfl, rfl⟩
      | true =>
          cases bs with
          | nil => exact .inr ⟨by simp [Call.constructFails], rfl, rfl⟩
          | cons b bs =>
              cases b with
              | false => exact .inl ⟨by simp [Call.constructFails], rfl, rfl⟩
              | true => exact .inr ⟨by simp [Call.constructFails], rfl, rfl⟩

end

/-- Writing back what is there. -/
theorem modify_self {h : KVContainer} (hok : h.Ok) {key : Key} {obj : ValueObject}
    (hf : h.find key = some obj) : h.modify key obj = h := by
  have hi : KVContainer.bucketIdx key < h.bucket.length := hok.placed.inRange key
  have hsame : ∀ e ∈ bucketAt h.bucket (KVContainer.bucketIdx key),
      (if e.1.eq key then (e.1, obj) else e) = e := by
    intro e he
    split
    · rename_i heq
      have hkey : e.1 = key := (StaticString.eq_iff_of_clean (hok.clean_bucket e he)).mp heq
      have hfind := find?_of_mem (hok.placed.nodup (KVContainer.bucketIdx key)) he
      rw [hkey, hok.find_bucket key rfl, hf] at hfind
      rw [Option.some.inj hfind]
    · rfl
  rw [KVContainer.modify, List.map_congr_left hsame, List.map_id']
  have hset : h.bucket.set (KVContainer.bucketIdx key)
      (bucketAt h.bucket (KVContainer.bucketIdx key)) = h.bucket := by
    rw [bucketAt, List.getElem?_eq_getElem hi, Option.getD_some, List.set_getElem_self]
  rw [hset]

/-! ## The operations -/

section

variable {h : KVContainer} (hok : h.Ok) (c : Call) (now : Nat) (key : Key)

/-- A failure that is reported by `false` alone. -/
theorem honest_false {code : Option ErrCode} {b : Bool} (hcode : code ≠ some .ok) :
    (⟨.bool false, code, b⟩ : Report).Honest := fun _ => ⟨.inl rfl, hcode⟩

/-- A failure that is reported by `errcode`. -/
theorem honest_code {ret : Ret} {code : ErrCode} {b : Bool} (hcode : code ≠ .ok) :
    (⟨ret, some code, b⟩ : Report).Honest :=
  fun _ => ⟨.inr ⟨code, rfl, hcode⟩, fun h => hcode (Option.some.inj h)⟩

theorem Payload.eq_string {p : Payload} (h : p.objectType = 2) : ∃ s, p = .string s := by
  cases p with
  | string s => exact ⟨s, rfl⟩
  | _ => simp [Payload.objectType] at h

theorem setInt_done (v : Int64) :
    Done h (h.setInt now key v) (h.raw.setInt now c.allocs key v) := by
  unfold RawContainer.setInt KVContainer.setInt KVContainer.put
  rw [find_raw]
  cases hf : h.find key with
  | none =>
      rw [Option.map_none]
      rcases constructIntObjPtr_spec c now v with ⟨hobj, hfail⟩ | ⟨hobj, hfail⟩
      · simp only [hobj]
        exact done_failed (honest_false (by simp)) hfail
      · simp only [hobj]
        exact done_ok (insertNew_raw h key ⟨.int v, now⟩) (by simp) (.inl rfl) hfail
  | some obj =>
      rw [Option.map_some]
      simp only [deref, ok_bind]
      refine done_ok ?_ (by simp) (.inl rfl) rfl
      rw [← modify_raw]
      obtain ⟨p, t⟩ := obj
      cases p <;> rfl

/-- `SetString` on a key that holds no string: the new string is allocated, and
the content of a collection is gone before. -/
theorem setString_other {obj : ValueObject} (hf : h.find key = some obj)
    (hp : obj.payload.objectType ≠ 2) (a : Allocs) (v : Bytes) :
    h.raw.setString now a key v =
      if a.next.1 then
        .ok ((h.modify key ⟨.string v, now⟩).raw, ⟨.bool true, none, a.next.2.failed⟩)
      else .ok (h.raw.modify key (some obj.raw.freePtr), ⟨.bool false, none, a.next.2.failed⟩) := by
  unfold RawContainer.setString
  rw [find_raw, hf, Option.map_some, ← modify_raw]
  simp only [deref, ok_bind]
  obtain ⟨p, t⟩ := obj
  cases p with
  | string s => exact absurd rfl hp
  | int n => rfl
  | list o => rfl
  | hash o => rfl
  | set o => rfl

include hok in
theorem setString_done (v : Bytes)
    (hsafe : c.newFails → ∀ w, h.view key = some w → w.objectType = 1 ∨ w.objectType = 2) :
    Done h (h.setString now key v) (h.raw.setString now c.allocs key v) := by
  unfold KVContainer.setString KVContainer.put
  cases hf : h.find key with
  | none =>
      unfold RawContainer.setString
      rw [find_raw, hf, Option.map_none]
      rcases constructObjPtr_spec c (.string v) now with ⟨-, hobj, hfail⟩ | ⟨-, hobj, hfail⟩
      · have hobj' : (constructStrObjPtr c.allocs now v).1 = none := hobj
        simp only [hobj']
        exact done_failed (honest_false (by simp)) hfail
      · have hobj' : (constructStrObjPtr c.allocs now v).1
            = some (ValueObject.raw ⟨.string v, now⟩) := hobj
        simp only [hobj']
        exact done_ok (insertNew_raw h key ⟨.string v, now⟩) (by simp) (.inl rfl) hfail
  | some obj =>
      have hview := KVContainer.view_of_find hf
      by_cases hp : obj.payload.objectType = 2
      · unfold RawContainer.setString
        rw [find_raw, hf, Option.map_some]
        simp only [deref, ok_bind]
        obtain ⟨p, t⟩ := obj
        obtain ⟨s, rfl⟩ := Payload.eq_string hp
        exact done_ok (modify_raw h key ⟨.string v, now⟩) (by simp) (.inl rfl) rfl
      · rw [setString_other now key hf hp]
        rcases next_spec c with ⟨hnew, hb, hfail⟩ | ⟨-, hb, hfail⟩
        · -- only an integer is left, and it stays
          have hint := hsafe hnew _ hview
          obtain ⟨p, t⟩ := obj
          cases p with
          | int n =>
              have hsame : h.raw.modify key (some (ValueObject.raw ⟨.int n, t⟩).freePtr) = h.raw :=
                (modify_raw h key ⟨.int n, t⟩).trans (by rw [modify_self hok hf])
              rw [hb, hsame]
              exact done_failed (honest_false (by simp)) hfail
          | string s => exact absurd rfl hp
          | list o => exact absurd hint (by simp only [Payload.toValue, Value.objectType]; decide)
          | hash o => exact absurd hint (by simp only [Payload.toValue, Value.objectType]; decide)
          | set o => exact absurd hint (by simp only [Payload.toValue, Value.objectType]; decide)
        · rw [if_pos hb]
          exact done_ok rfl (by simp) (.inl rfl) hfail

include hok in
theorem addInt_done (change : Int64) (bad : Int64 → Bool) :
    Done h (h.addInt now key change bad).1 (h.raw.addInt now c.allocs key change bad) := by
  unfold RawContainer.addInt KVContainer.addInt
  rw [find_raw]
  cases hf : h.find key with
  | none =>
      rw [Option.map_none]
      rcases constructIntObjPtr_spec c now change with ⟨hobj, hfail⟩ | ⟨hobj, hfail⟩
      · simp only [hobj]
        exact done_failed (honest_code (by simp)) hfail
      · simp only [hobj]
        exact done_ok (insertNew_raw h key ⟨.int change, now⟩) (by simp) (.inr rfl) hfail
  | some obj =>
      rw [Option.map_some]
      simp only [deref, ok_bind]
      obtain ⟨p, t⟩ := obj
      cases p with
      | int n =>
          have hn : (ValueObject.raw ⟨.int n, t⟩).toInt64 = .ok n := rfl
          have htype : ¬ (ValueObject.raw ⟨.int n, t⟩).type ≠ 1 := fun hne => hne rfl
          simp only [if_neg htype, hn, ok_bind, Payload.asInt]
          by_cases hb : bad n = true
          · -- the visit time is all that changes
            have hkeep : h.Keeps (h.modify key ⟨.int n, now⟩) :=
              KVContainer.revisit_keeps hok key hf rfl
            rw [if_pos hb, if_pos hb]
            refine ⟨h.modify key ⟨.int n, now⟩, ⟨.int64 0, some .overflow, false⟩, ?_,
              .inl rfl, fun _ => ⟨hkeep.2, rfl⟩, honest_code (by simp)⟩
            rw [← modify_raw]
            rfl
          · rw [if_neg hb, if_neg hb]
            exact done_ok (modify_raw h key ⟨.int (n + change), now⟩) (by simp) (.inr rfl) rfl
      | _ => exact done_refused (honest_code (by simp))

/-- `Append` to an integer whose string is not allocated: `errcode` is as it was. -/
theorem append_int {n : Int64} {t : Nat} (hf : h.find key = some ⟨.int n, t⟩) (a : Allocs)
    (errcode : ErrCode) (val : Bytes) :
    h.raw.append now a errcode key val =
      if a.next.1 then
        .ok ((h.modify key ⟨.string (intToString n.toInt ++ val), now⟩).raw,
          ⟨.size (intToString n.toInt ++ val).length, some .ok, a.next.2.failed⟩)
      else .ok (h.raw, ⟨.size 0, some errcode, a.next.2.failed⟩) := by
  unfold RawContainer.append
  rw [find_raw, hf, Option.map_some, ← modify_raw]
  simp only [deref, ok_bind]
  rfl

theorem append_done (errcode : ErrCode) (val : Bytes)
    (hsafe : c.newFails → errcode = .ok → ∀ v, h.view key = some v → v.objectType ≠ 1) :
    Done h (h.append now key val).1 (h.raw.append now c.allocs errcode key val) := by
  unfold KVContainer.append
  cases hf : h.find key with
  | none =>
      unfold RawContainer.append
      rw [find_raw, hf, Option.map_none]
      rcases constructObjPtr_spec c (.string val) now with ⟨-, hobj, hfail⟩ | ⟨-, hobj, hfail⟩
      · have hobj' : (constructStrObjPtr c.allocs now val).1 = none := hobj
        simp only [hobj']
        exact done_failed (honest_code (by simp)) hfail
      · have hobj' : (constructStrObjPtr c.allocs now val).1
            = some (ValueObject.raw ⟨.string val, now⟩) := hobj
        simp only [hobj']
        exact done_ok (insertNew_raw h key ⟨.string val, now⟩) (by simp) (.inr rfl) hfail
  | some obj =>
      have hview := KVContainer.view_of_find hf
      obtain ⟨p, t⟩ := obj
      cases p with
      | int n =>
          rw [append_int now key hf]
          rcases next_spec c with ⟨hnew, hb, hfail⟩ | ⟨-, hb, hfail⟩
          · rw [hb]
            exact done_failed (honest_code fun hcode => hsafe hnew hcode _ hview rfl) hfail
          · rw [if_pos hb]
            exact done_ok rfl (by simp) (.inr rfl) hfail
      | string s =>
          unfold RawContainer.append
          rw [find_raw, hf, Option.map_some]
          exact done_ok (modify_raw h key ⟨.string (s ++ val), now⟩) (by simp) (.inr rfl) rfl
      | _ =>
          unfold RawContainer.append
          rw [find_raw, hf, Option.map_some]
          exact done_refused (honest_code (by simp))

include hok in
theorem listPushAux_done (left : Bool) (values : List Bytes) (wrong : Ret) {ret : ListObject → Ret}
    (hret : ∀ o, ret o ≠ .bool false) (hsafe : c.constructFails → h.view key ≠ none) :
    Done h (h.listPush now key left values).1
      (h.raw.listPushAux now c.allocs key left values wrong ret) := by
  unfold RawContainer.listPushAux KVContainer.listPush KVContainer.createOrOnType
  rw [find_raw]
  cases hf : h.find key with
  | none =>
      rw [Option.map_none]
      rcases constructObjPtr_spec c (.list .new) now with ⟨hfails, -, -⟩ | ⟨-, hobj, hfail⟩
      · exact absurd (KVContainer.view_of_find_none hf) (hsafe hfails)
      · have hobj' : (constructDListObjPtr c.allocs now).1
            = some (ValueObject.raw ⟨.list .new, now⟩) := hobj
        simp only [hobj']
        refine done_ok ?_ (hret _) (.inr rfl) hfail
        rw [insertNew_modify hok hf]
        exact insertNew_raw h key ⟨.list (KVContainer.pushAll .new left values), now⟩
  | some obj =>
      rw [Option.map_some]
      simp only [deref, ok_bind]
      obtain ⟨p, t⟩ := obj
      cases p with
      | list o =>
          exact done_ok (modify_raw h key ⟨.list (KVContainer.pushAll o left values), now⟩) (hret _)
            (.inr rfl) rfl
      | _ => exact done_refused (honest_code (by simp))

theorem listSetItemAtIndex_done (index : Int) (val : Bytes) :
    Done h (h.listSetItemAtIndex now key index val).1
      (h.raw.listSetItemAtIndex now c.allocs key index val) := by
  unfold RawContainer.listSetItemAtIndex KVContainer.listSetItemAtIndex
  rw [find_raw]
  cases hf : h.find key with
  | none => exact done_refused (honest_code (by simp))
  | some obj =>
      rw [Option.map_some]
      simp only [deref, ok_bind]
      obtain ⟨p, t⟩ := obj
      cases p with
      | list o =>
          have ho : (ValueObject.raw ⟨.list o, t⟩).asList = .ok o := rfl
          have htype : ¬ (ValueObject.raw ⟨.list o, t⟩).type ≠ 3 := fun hne => hne rfl
          simp only [if_neg htype, ho, ok_bind, Payload.asList]
          split
          · exact done_refused (honest_code (by simp))
          · cases hset : o.setAt (KVContainer.normIndex index o.length).toNat val with
            | none => exact done_refused (honest_code (by simp))
            | some o' =>
                exact done_ok (modify_raw h key ⟨.list o', now⟩) (by simp) (.inr rfl) rfl
      | _ => exact done_refused (honest_code (by simp))

theorem hashUpdateKV_done (field value : Bytes) :
    Done h (h.hashUpdateKV now key [(field, value)]).1
      (h.raw.hashUpdateKV now c.allocs key field value) := by
  unfold RawContainer.hashUpdateKV KVContainer.hashUpdateKV KVContainer.createOrOnType
  rw [find_raw]
  cases hf : h.find key with
  | none =>
      rw [Option.map_none]
      rcases constructObjPtr_spec c (.hash .new) now with ⟨-, hobj, hfail⟩ | ⟨-, hobj, hfail⟩
      · have hobj' : (constructHashObjPtr c.allocs now).1 = none := hobj
        simp only [hobj']
        exact done_failed (honest_code (by simp)) hfail
      · have hobj' : (constructHashObjPtr c.allocs now).1
            = some (ValueObject.raw ⟨.hash .new, now⟩) := hobj
        simp only [hobj']
        exact done_ok
          (insertNew_raw h key ⟨.hash (KVContainer.updateAll .new [(field, value)]), now⟩)
          (by simp) (.inr rfl) hfail
  | some obj =>
      rw [Option.map_some]
      simp only [deref, ok_bind]
      obtain ⟨p, t⟩ := obj
      cases p with
      | hash o =>
          have ho : (ValueObject.raw ⟨.hash o, t⟩).asHash = .ok o := rfl
          have htype : ¬ (ValueObject.raw ⟨.hash o, t⟩).type ≠ 4 := fun hne => hne rfl
          have hadded : (o.update field value).2 ≠ .undefined := by
            rw [DictObject.update_answer]
            split <;> simp
          simp only [if_neg htype, ho, ok_bind, if_neg hadded]
          exact done_ok (modify_raw h key ⟨.hash (KVContainer.updateAll o [(field, value)]), now⟩)
            (by simp) (.inr rfl) rfl
      | _ => exact done_refused (honest_code (by simp))

include hok in
theorem hashUpdateVectors_done (fields values : List Bytes) :
    Done h (h.hashUpdateVectors now key fields values).1
      (h.raw.hashUpdateVectors now c.allocs key fields values) := by
  unfold RawContainer.hashUpdateVectors KVContainer.hashUpdateVectors
  by_cases hlen : fields.length ≠ values.length
  · rw [if_pos hlen, if_pos hlen]
    exact done_refused (honest_code (by simp))
  rw [if_neg hlen, if_neg hlen]
  unfold KVContainer.hashUpdateKV KVContainer.createOrOnType
  rw [find_raw]
  cases hf : h.find key with
  | none =>
      rw [Option.map_none]
      rcases constructObjPtr_spec c (.hash .new) now with ⟨-, hobj, hfail⟩ | ⟨-, hobj, hfail⟩
      · have hobj' : (constructHashObjPtr c.allocs now).1 = none := hobj
        simp only [hobj']
        exact done_failed (honest_code (by simp)) hfail
      · have hobj' : (constructHashObjPtr c.allocs now).1
            = some (ValueObject.raw ⟨.hash .new, now⟩) := hobj
        simp only [hobj']
        refine done_ok ?_ (by simp) (.inr rfl) hfail
        rw [insertNew_modify hok hf]
        exact insertNew_raw h key ⟨.hash (KVContainer.updateAll .new (fields.zip values)), now⟩
  | some obj =>
      rw [Option.map_some]
      simp only [deref, ok_bind]
      obtain ⟨p, t⟩ := obj
      cases p with
      | hash o =>
          exact done_ok
            (modify_raw h key ⟨.hash (KVContainer.updateAll o (fields.zip values)), now⟩)
            (by simp) (.inr rfl) rfl
      | _ => exact done_refused (honest_code (by simp))

include hok in
theorem setAddItem_done (member : Bytes) :
    Done h (h.setAddItem now key [member]).1 (h.raw.setAddItem now c.allocs key member) := by
  unfold RawContainer.setAddItem KVContainer.setAddItem KVContainer.createOrOnType
  rw [find_raw]
  cases hf : h.find key with
  | none =>
      rw [Option.map_none]
      rcases constructObjPtr_spec c (.set .new) now with ⟨-, hobj, hfail⟩ | ⟨-, hobj, hfail⟩
      · have hobj' : (constructSetObjPtr c.allocs now).1 = none := hobj
        simp only [hobj']
        exact done_failed (honest_code (by simp)) hfail
      · have hobj' : (constructSetObjPtr c.allocs now).1
            = some (ValueObject.raw ⟨.set .new, now⟩) := hobj
        simp only [hobj']
        exact done_ok (insertNew_raw h key ⟨.set (KVContainer.insertAll .new [member]).1, now⟩)
          (by simp) (.inr rfl) hfail
  | some obj =>
      rw [Option.map_some]
      simp only [deref, ok_bind]
      obtain ⟨p, t⟩ := obj
      cases p with
      | set o =>
          have ho : (ValueObject.raw ⟨.set o, t⟩).asSet = .ok o := rfl
          have htype : ¬ (ValueObject.raw ⟨.set o, t⟩).type ≠ 5 := fun hne => hne rfl
          have hmod := modify_raw h key ⟨.set (KVContainer.insertAll o [member]).1, now⟩
          simp only [if_neg htype, ho, ok_bind, SetObject.insert_answer]
          by_cases hin : o.contains member = true
          · -- the member is there already, and the set is the same
            have hsame : (KVContainer.insertAll o [member]).1.contains = o.contains := by
              rw [KVContainer.contains_insertAll]
              funext k
              by_cases hk : k = member
              · rw [hk, hin, Bool.or_true]
              · simp [hk]
            have hkeep : h.Keeps (h.modify key ⟨.set (KVContainer.insertAll o [member]).1, now⟩) :=
              KVContainer.revisit_keeps hok key hf (by rw [Payload.toValue, Payload.toValue, hsame])
            simp only [hin, if_true, true_or]
            refine ⟨_, ⟨.bool false, some .fail, false⟩, ?_, .inl rfl, fun _ => ⟨hkeep.2, rfl⟩,
              honest_false (by simp)⟩
            exact congrArg
              (fun s => Except.ok (s, (⟨.bool false, some .fail, false⟩ : Report))) hmod
          · have hnew : ¬ (Added.newAdded = .existed ∨ Added.newAdded = .undefined) := by simp
            simp only [if_neg hin, if_neg hnew]
            exact done_ok hmod (by simp) (.inr rfl) rfl
      | _ => exact done_refused (honest_code (by simp))

include hok in
theorem setAddItems_done (members : List Bytes) :
    Done h (h.setAddItem now key members).1 (h.raw.setAddItems now c.allocs key members) := by
  unfold RawContainer.setAddItems KVContainer.setAddItem KVContainer.createOrOnType
  rw [find_raw]
  cases hf : h.find key with
  | none =>
      rw [Option.map_none]
      rcases constructObjPtr_spec c (.set .new) now with ⟨-, hobj, hfail⟩ | ⟨-, hobj, hfail⟩
      · have hobj' : (constructSetObjPtr c.allocs now).1 = none := hobj
        simp only [hobj']
        exact done_failed (honest_code (by simp)) hfail
      · have hobj' : (constructSetObjPtr c.allocs now).1
            = some (ValueObject.raw ⟨.set .new, now⟩) := hobj
        simp only [hobj']
        refine done_ok ?_ (by simp) (.inr rfl) hfail
        rw [insertNew_modify hok hf]
        exact insertNew_raw h key ⟨.set (KVContainer.insertAll .new members).1, now⟩
  | some obj =>
      rw [Option.map_some]
      simp only [deref, ok_bind]
      obtain ⟨p, t⟩ := obj
      cases p with
      | set o =>
          exact done_ok (modify_raw h key ⟨.set (KVContainer.insertAll o members).1, now⟩)
            (by simp) (.inr rfl) rfl
      | _ => exact done_refused (honest_code (by simp))

end

/-! ## Every call -/

/-- A call that takes none of the three branches leaves an intact container. -/
theorem Write.done {h : KVContainer} (hok : h.Ok) (c : Call) {w : Write} (hsafe : w.Safe h c) :
    Done h (h.apply (w.op, c.now)) (w.run h.raw c) := by
  cases w with
  | setInt key v => exact setInt_done c c.now _ v
  | setString key v => exact setString_done hok c c.now _ v hsafe
  | incrIntBy key n => exact addInt_done hok c c.now _ _ _
  | decrIntBy key n => exact addInt_done hok c c.now _ _ _
  | append key val => exact append_done c c.now _ c.errcode val hsafe
  | listPush key left val => exact listPushAux_done hok c c.now _ left [val] _ (by simp) hsafe
  | listPushVector key left values =>
      exact listPushAux_done hok c c.now _ left values _ (by simp) hsafe
  | listSetItemAtIndex key index val => exact listSetItemAtIndex_done c c.now _ _ val
  | hashUpdateKV key field value => exact hashUpdateKV_done c c.now _ field value
  | hashUpdateVectors key fields values => exact hashUpdateVectors_done hok c c.now _ fields values
  | setAddItem key member => exact setAddItem_done hok c c.now _ member
  | setAddItems key members => exact setAddItems_done hok c c.now _ members

/-- A call none of whose allocations failed does what the operation of
`LiteKV.Core` does. -/
theorem Write.refines {h : KVContainer} (hok : h.Ok) (c : Call) {w : Write} (hsafe : w.Safe h c) :
    ∃ k r, w.run h.raw c = .ok (k.raw, r) ∧
      (r.allocFailed = false → k = h.apply (w.op, c.now)) := by
  obtain ⟨k, r, hrun, hk⟩ := Write.done hok c hsafe
  refine ⟨k, r, hrun, fun halloc => hk.state.resolve_right fun hfail => ?_⟩
  rw [halloc] at hfail
  exact Bool.false_ne_true hfail.1

section

variable {h : KVContainer} (hok : h.Ok)

include hok

/-- What is found under a key whose object was changed. -/
theorem find_modify_raw {key : Key} {obj : ValueObject} (hf : h.find key = some obj)
    (x : RawObjectPtr) : (h.raw.modify key x).find key = some x := by
  have hi : KVContainer.bucketIdx key < h.raw.bucket.length := by
    rw [KVContainer.raw, List.length_map]
    exact hok.placed.inRange key
  have hraw : h.raw.find key = some (some obj.raw) := by rw [find_raw, hf]; rfl
  rw [RawContainer.find, Option.map_eq_some_iff] at hraw
  obtain ⟨e, he, -⟩ := hraw
  have heq : e.1.eq key = true := by
    have hsome := List.find?_some he
    exact hsome
  have hcomp : (fun e' : Key × RawObjectPtr =>
      (if e'.1.eq key then (e'.1, x) else e').1.eq key) = fun e' => e'.1.eq key := by
    funext e'
    split <;> rfl
  rw [RawContainer.find, RawContainer.modify, bucketAt_set hi, if_pos rfl, List.find?_map]
  simp only [Function.comp_def, hcomp, he, Option.map_some, heq, if_true]

/-- `SetString` frees a collection and fails: the key has its type and no value. -/
theorem setString_damages {key : Key} {v : Value} (hv : h.view key = some v)
    (hcoll : ¬ (v.objectType = 1 ∨ v.objectType = 2)) {c : Call} (hnew : c.newFails) (now : Nat)
    (value : Bytes) : ¬ LeavesStore h.raw (h.raw.setString now c.allocs key value) := by
  rw [KVContainer.view, Option.map_eq_some_iff] at hv
  obtain ⟨obj, hf, rfl⟩ := hv
  have htype : ∀ p : Payload, p.toValue.objectType = p.objectType := by
    intro p
    cases p <;> rfl
  rw [htype, not_or] at hcoll
  have hb : c.allocs.next.1 = false := by
    rcases next_spec c with ⟨-, hb, -⟩ | ⟨hnot, -⟩
    · exact hb
    · exact absurd hnew hnot
  rw [setString_other now key hf hcoll.2, hb]
  rintro ⟨hkept, -⟩
  have hsame := (hkept (.inl rfl)).1 key
  have hfree : obj.raw.freePtr.ptr = .null := by
    unfold RawObject.freePtr
    exact congrArg RawObject.ptr (if_pos hcoll.1)
  have hptr : obj.payload.ptr.value = none := by
    rw [RawContainer.holds, find_modify_raw hok hf, RawContainer.holds, find_raw, hf] at hsame
    have hpair := Option.some.inj (Option.some.inj hsame)
    have hval : obj.raw.freePtr.ptr.value = obj.raw.ptr.value := congrArg Prod.snd hpair
    rw [hfree] at hval
    exact hval.symm
  cases hp : obj.payload <;> simp [hp, Payload.ptr, Ptr.value] at hptr

omit hok in
/-- `ListPushAux` reads through the empty pointer. -/
theorem listPushAux_faults {key : Key} (hv : h.view key = none) {c : Call}
    (hfails : c.constructFails) (now : Nat) (left : Bool) (values : List Bytes) (wrong : Ret)
    (ret : ListObject → Ret) :
    h.raw.listPushAux now c.allocs key left values wrong ret = .error .nullObject := by
  rw [KVContainer.view, Option.map_eq_none_iff] at hv
  unfold RawContainer.listPushAux
  rw [find_raw, hv, Option.map_none]
  rcases constructObjPtr_spec c (.list .new) now with ⟨-, hobj, -⟩ | ⟨hnot, -, -⟩
  · have hobj' : (constructDListObjPtr c.allocs now).1 = none := hobj
    simp only [hobj']
    rfl
  · exact absurd hfails hnot

omit hok in
/-- `Append` fails and leaves `kOkCode` where it was. -/
theorem append_conceals {key : Key} {v : Value} (hv : h.view key = some v)
    (hint : v.objectType = 1) {c : Call} (hnew : c.newFails) (now : Nat) (val : Bytes) :
    ¬ LeavesStore h.raw (h.raw.append now c.allocs .ok key val) := by
  rw [KVContainer.view, Option.map_eq_some_iff] at hv
  obtain ⟨⟨p, t⟩, hf, rfl⟩ := hv
  cases p with
  | int n =>
      rcases next_spec c with ⟨-, hb, hfail⟩ | ⟨hnot, -⟩
      · rw [append_int now key hf, hb]
        rintro ⟨-, hhonest⟩
        exact (hhonest (.inl hfail)).2 rfl
      · exact absurd hnew hnot
  | _ => simp [Payload.toValue, Value.objectType] at hint

/-- In each of the three branches the property fails. -/
theorem Write.not_leavesStore {c : Call} {w : Write} (hw : ¬ w.Safe h c) :
    ¬ LeavesStore h.raw (w.run h.raw c) := by
  cases w with
  | setString key v =>
      simp only [Write.Safe, Classical.not_imp, not_forall] at hw
      obtain ⟨hnew, v', hv, hcoll⟩ := hw
      exact setString_damages hok hv hcoll hnew c.now v
  | append key val =>
      simp only [Write.Safe, Classical.not_imp, not_forall, not_not] at hw
      obtain ⟨hnew, hcode, v', hv, hint⟩ := hw
      have hrun := append_conceals hv hint hnew c.now val
      rw [← hcode] at hrun
      exact hrun
  | listPush key left val =>
      simp only [Write.Safe, Classical.not_imp, not_not] at hw
      intro hleaves
      have hrun := listPushAux_faults hw.2 hw.1 c.now left [val] (.bool false) fun _ => .bool true
      have hfault : LeavesStore h.raw (.error .nullObject) := hrun ▸ hleaves
      exact hfault
  | listPushVector key left values =>
      simp only [Write.Safe, Classical.not_imp, not_not] at hw
      intro hleaves
      have hrun := listPushAux_faults hw.2 hw.1 c.now left values (.size 0) fun o => .size o.length
      have hfault : LeavesStore h.raw (.error .nullObject) := hrun ▸ hleaves
      exact hfault
  | _ => exact absurd trivial hw

end

/-! ## Runs -/

/-- A container reached from a new one by operations that allocate what they
need, and by writes, whatever their allocations do, that take none of the three
branches. -/
inductive Reached : KVContainer → Prop where
  | new : Reached .new
  | op {h : KVContainer} (i : KVContainer.Op × Nat) : Reached h → Reached (h.apply i)
  | write {h h' : KVContainer} {c : Call} {w : Write} {r : Report} : Reached h → w.Safe h c →
      w.run h.raw c = .ok (h'.raw, r) → Reached h'

/-- Every container of the runs without failures is reached. -/
theorem KVContainer.Reachable.reached {h : KVContainer} (hr : h.Reachable) : Reached h := by
  have hfold : ∀ (ops : List (KVContainer.Op × Nat)) (h : KVContainer), Reached h →
      Reached (ops.foldl KVContainer.apply h) := by
    intro ops
    induction ops with
    | nil => intro h hr; exact hr
    | cons i ops ih => intro h hr; exact ih _ (.op i hr)
  obtain ⟨ops, rfl⟩ := hr
  exact hfold ops .new .new

theorem raw_injective : Function.Injective KVContainer.raw := by
  have hobj : Function.Injective ValueObject.raw := by
    intro x y hxy
    obtain ⟨p, t⟩ := x
    obtain ⟨q, u⟩ := y
    have hptr : p.ptr = q.ptr := congrArg RawObject.ptr hxy
    have htime : t = u := congrArg RawObject.lvTime hxy
    rw [htime]
    cases p <;> cases q <;> cases hptr <;> rfl
  have hentry : Function.Injective fun e : Key × ValueObject => (e.1, some e.2.raw) := by
    intro x y hxy
    have h1 := congrArg Prod.fst hxy
    have h2 := hobj (Option.some.inj (congrArg Prod.snd hxy))
    exact Prod.ext h1 h2
  intro h h' heq
  obtain ⟨b, pool⟩ := h
  obtain ⟨b', pool'⟩ := h'
  have hpool : pool = pool' := congrArg RawContainer.keysPool heq
  have hbucket : b = b' := List.map_injective_iff.mpr (List.map_injective_iff.mpr hentry)
    (congrArg RawContainer.bucket heq)
  rw [hpool, hbucket]

theorem Reached.reachable {h : KVContainer} (hr : Reached h) : h.Reachable := by
  have hop : ∀ {h : KVContainer}, h.Reachable → ∀ i, (h.apply i).Reachable := by
    rintro h ⟨ops, rfl⟩ i
    exact ⟨ops ++ [i], by rw [List.foldl_append]; rfl⟩
  induction hr with
  | new => exact ⟨[], rfl⟩
  | op i _ ih => exact hop ih i
  | write _ hsafe hrun ih =>
      obtain ⟨k, r, hdone, hk⟩ := Write.done ih.ok _ hsafe
      rw [hrun] at hdone
      have heq := raw_injective (congrArg Prod.fst (Except.ok.inj hdone))
      rw [heq]
      rcases hk.state with rfl | ⟨-, rfl⟩
      · exact hop ih _
      · exact ih

/-- **A failed write leaves the store as it was**, in every run, exactly as long
as it takes none of the three branches. -/
theorem failed_write_iff {h : KVContainer} (hr : Reached h) (c : Call) (w : Write) :
    LeavesStore h.raw (w.run h.raw c) ↔ w.Safe h c := by
  have hok := hr.reachable.ok
  constructor
  · intro hleaves
    by_contra hw
    exact Write.not_leavesStore hok hw hleaves
  · intro hsafe
    exact (Write.done hok c hsafe).leavesStore

/-- A list of one element, and an integer. -/
def mixedStore : KVContainer :=
  [(KVContainer.Op.listPush [108] false [[120]], 0), (.setInt [97] 1, 0)].foldl
    KVContainer.apply .new

theorem mixedStore_reached : Reached mixedStore := KVContainer.Reachable.reached ⟨_, rfl⟩

theorem mixedStore_view : (mixedStore.view (.ofStdString [108])).map Value.objectType = some 3 ∧
    (mixedStore.view (.ofStdString [97])).map Value.objectType = some 1 ∧
    mixedStore.view (.ofStdString [98]) = none := by
  refine ⟨by decide +kernel, by decide +kernel, ?_⟩
  rw [KVContainer.view, Option.map_eq_none_iff]
  rfl

/-- `SET a x` over the integer, the new string not allocated. -/
theorem failed_write_mixedStore :
    LeavesStore mixedStore.raw
      ((Write.setString [97] [120]).run mixedStore.raw ⟨0, [false], .ok⟩) := by
  refine (failed_write_iff mixedStore_reached ⟨0, [false], .ok⟩ (.setString [97] [120])).mpr ?_
  intro _ v hv
  have htype := mixedStore_view.2.1
  rw [hv, Option.map_some, Option.some.injEq] at htype
  exact .inl htype

/-- `SET l x` over the list, `RPUSH b x` on a missing key and `APPEND a x` on the
integer, with an allocation that fails. -/
theorem failed_writes_damage : Reached mixedStore ∧
    ¬ LeavesStore mixedStore.raw
      ((Write.setString [108] [120]).run mixedStore.raw ⟨0, [false], .ok⟩) ∧
    ¬ LeavesStore mixedStore.raw
      ((Write.listPushVector [98] false [[120]]).run mixedStore.raw ⟨0, [false], .ok⟩) ∧
    ¬ LeavesStore mixedStore.raw
      ((Write.append [97] [120]).run mixedStore.raw ⟨0, [false], .ok⟩) := by
  have hok := mixedStore_reached.reachable.ok
  obtain ⟨hlist, hint, hnone⟩ := mixedStore_view
  refine ⟨mixedStore_reached, ?_, ?_, ?_⟩
  · refine Write.not_leavesStore hok fun hsafe => ?_
    obtain ⟨v, hv, htype⟩ := Option.map_eq_some_iff.mp hlist
    have h12 := hsafe rfl v hv
    rw [htype] at h12
    exact absurd h12 (by decide)
  · exact Write.not_leavesStore hok fun hsafe => hsafe (by simp [Call.constructFails]) hnone
  · refine Write.not_leavesStore hok fun hsafe => ?_
    obtain ⟨v, hv, htype⟩ := Option.map_eq_some_iff.mp hint
    exact hsafe rfl rfl v hv htype

end LiteKV

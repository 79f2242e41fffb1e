/-
LiteKV.CoreTheorems — the container is a map from keys to values.

A container is `Ok` when every entry is in its key's bucket under a key
without NUL bytes, no key is listed twice, and `keys_pool_` lists the keys
once each. `find` is then a lookup in the list of all entries, so the three
functions that touch the buckets have their effect described by one
equation each: `insertNew_spec`, `modify_spec`, `delete_spec`.

`view` is the abstract store a container stands for. Every operation acts
on one key: `Acts h key f h'` says that `h'` is an `Ok` container whose
store is that of `h` with `f` applied to the key's cell. The cell
operations of `Store` are what each operation is compared with.
-/
import LiteKV.Store

namespace LiteKV

open Lib Lib.AssocList Lib.Buckets

/-! ## What the collections list -/

theorem DictObject.entries_spec (o : DictObject) :
    (keys o.allEntries).Nodup ∧ o.count = o.allEntries.length ∧
      ∀ k, o.lookup k = AssocList.find? k o.allEntries := by
  obtain ⟨he, -, -, hc⟩ := Rehashable.lists o.ok
  refine ⟨?_, ?_, ?_⟩
  · rw [allEntries, he]
    exact Rehashable.nodup_entries o.ok
  · rw [allEntries, he, count, hc]
  · intro k
    rw [allEntries, he]
    exact Rehashable.lookup_eq_find? o.dict k

theorem SetObject.members_spec (o : SetObject) :
    o.count = o.allKeys.length ∧ ∀ k, o.contains k = decide (k ∈ o.allKeys) := by
  have hm := o.isMap
  refine ⟨hm.count, fun k => ?_⟩
  rw [contains, Bool.eq_iff_iff, decide_eq_true_eq]
  exact (hm.mem_keys k).symm

/-- Writing pairs with distinct keys gives the map they list. -/
theorem updated_eq_find? (es : List (Bytes × Bytes)) : ∀ (m : Bytes → Option Bytes),
    (keys es).Nodup → Cell.updated es m = fun k => (AssocList.find? k es).or (m k) := by
  induction es with
  | nil => intro m _; funext k; simp [Cell.updated]
  | cons e es ih =>
    intro m hn
    rw [keys_cons, List.nodup_cons] at hn
    have hstep : Cell.updated (e :: es) m = Cell.updated es (Function.update m e.1 (some e.2)) :=
      rfl
    rw [hstep, ih _ hn.2]
    funext k
    rw [find?_cons, Function.update_apply]
    by_cases hk : e.1 = k
    · have hnone : AssocList.find? k es = none := find?_eq_none.mpr (hk ▸ hn.1)
      simp [hk, hnone]
    · simp [hk, Ne.symm hk]

/-- A dictionary is what writing its own entries gives. -/
theorem DictObject.updated_entries (o : DictObject) :
    Cell.updated o.allEntries (fun _ => none) = o.lookup := by
  obtain ⟨hn, -, hfind⟩ := o.entries_spec
  rw [updated_eq_find? _ _ hn]
  funext k
  rw [hfind, Option.or_none]

namespace KVContainer

/-- What holds of every container the operations build. -/
structure Ok (h : KVContainer) : Prop where
  placed : Placed bucketIdx h.bucket
  clean : ∀ e ∈ h.bucket.flatten, e.1.Clean
  poolNodup : h.keysPool.Nodup
  pool : ∀ k, k ∈ h.keysPool ↔ k ∈ keys h.bucket.flatten

theorem ok_new : new.Ok := by
  have hflat : (List.replicate kBucketSize ([] : List (Key × ValueObject))).flatten = [] := by
    simp
  refine ⟨placed_replicate fun k => Nat.mod_lt _ (by decide), ?_, List.nodup_nil, ?_⟩
  · intro e he
    simp [new] at he
  · intro k
    simp [new]

/-- In a bucket of clean keys, `operator==` finds what equality finds. -/
theorem find?_eq_of_clean {b : List (Key × ValueObject)} (h : ∀ e ∈ b, e.1.Clean) (key : Key) :
    (b.find? fun e => e.1.eq key).map Prod.snd = AssocList.find? key b := by
  induction b with
  | nil => rfl
  | cons e b ih =>
    have he : e.1.eq key = decide (e.1 = key) := by
      rw [Bool.eq_iff_iff, StaticString.eq_iff_of_clean (h e List.mem_cons_self)]
      simp
    rw [List.find?_cons, find?_cons, he]
    by_cases hk : e.1 = key
    · simp [hk]
    · simpa [hk] using ih fun e' he' => h e' (List.mem_cons_of_mem e he')

section

variable {h : KVContainer} (hok : h.Ok) (key : Key)

include hok

theorem Ok.clean_bucket {i : Nat} : ∀ e ∈ bucketAt h.bucket i, e.1.Clean :=
  fun e he => hok.clean e (mem_flatten.mpr ⟨i, he⟩)

/-- A lookup in the container is a lookup in the list of all its entries. -/
theorem Ok.find_eq : h.find key = AssocList.find? key h.bucket.flatten := by
  rw [find, find?_eq_of_clean hok.clean_bucket, hok.placed.find?_flatten]

theorem Ok.find_isSome : (h.find key).isSome ↔ key ∈ h.keysPool := by
  rw [hok.find_eq, find?_isSome, hok.pool]

/-- Only clean keys are found. -/
theorem Ok.clean_of_find {obj : ValueObject} (hf : h.find key = some obj) : key.Clean := by
  rw [hok.find_eq] at hf
  exact hok.clean _ (mem_of_find? hf)

theorem Ok.clean_of_pool (hk : key ∈ h.keysPool) : key.Clean := by
  obtain ⟨e, he, rfl⟩ := List.mem_map.mp ((hok.pool key).mp hk)
  exact hok.clean e he

/-- Replacing the bucket of a key, and the pool with it. -/
theorem Ok.replace {b : List (Key × ValueObject)} (pool : List Key)
    (hb : ∀ e ∈ b, e.1.Clean ∧ bucketIdx e.1 = bucketIdx key) (hn : (keys b).Nodup)
    (hp : pool.Nodup)
    (hm : ∀ k, k ∈ pool ↔ if bucketIdx k = bucketIdx key then k ∈ keys b else k ∈ h.keysPool) :
    (⟨h.bucket.set (bucketIdx key) b, pool⟩ : KVContainer).Ok := by
  have hi := hok.placed.inRange key
  have hset := hok.placed.set hi (fun e he => (hb e he).2) hn
  refine ⟨hset, ?_, hp, ?_⟩
  · intro e he
    obtain ⟨i, hi'⟩ := mem_flatten.mp he
    rw [bucketAt_set hi] at hi'
    split at hi'
    · exact (hb e hi').1
    · exact hok.clean_bucket e hi'
  · intro k
    rw [hm k, ← find?_isSome (l := (h.bucket.set (bucketIdx key) b).flatten),
      hok.placed.find?_set hi (fun e he => (hb e he).2) hn]
    split
    · rw [find?_isSome]
    · rw [find?_isSome, hok.pool]

/-- What is found after the bucket of a key was replaced. -/
theorem Ok.find_replace {b : List (Key × ValueObject)} {pool : List Key}
    (hr : (⟨h.bucket.set (bucketIdx key) b, pool⟩ : KVContainer).Ok)
    (hb : ∀ e ∈ b, bucketIdx e.1 = bucketIdx key) (hn : (keys b).Nodup) (k : Key) :
    (⟨h.bucket.set (bucketIdx key) b, pool⟩ : KVContainer).find k
      = if bucketIdx k = bucketIdx key then AssocList.find? k b else h.find k := by
  rw [hr.find_eq, hok.placed.find?_set (hok.placed.inRange key) hb hn, hok.find_eq]

/-- A lookup in the key's own bucket. -/
theorem Ok.find_bucket {k : Key} (hk : bucketIdx k = bucketIdx key) :
    AssocList.find? k (bucketAt h.bucket (bucketIdx key)) = h.find k := by
  rw [hok.find_eq, hok.placed.find?_flatten, hk]

theorem insertNew_spec (hkey : key.Clean) (hf : h.find key = none) (obj : ValueObject) :
    (h.insertNew key obj).Ok ∧
      ∀ k, (h.insertNew key obj).find k = if k = key then some obj else h.find k := by
  have hnone : key ∉ keys (bucketAt h.bucket (bucketIdx key)) := by
    rw [← find?_eq_none, hok.find_bucket key rfl, hf]
  have hb : ∀ e ∈ (key, obj) :: bucketAt h.bucket (bucketIdx key),
      e.1.Clean ∧ bucketIdx e.1 = bucketIdx key := by
    intro e he
    rcases List.mem_cons.mp he with rfl | he
    · exact ⟨hkey, rfl⟩
    · exact ⟨hok.clean_bucket e he, hok.placed.placed _ e he⟩
  have hn : (keys ((key, obj) :: bucketAt h.bucket (bucketIdx key))).Nodup := by
    rw [keys_cons, List.nodup_cons]
    exact ⟨hnone, hok.placed.nodup _⟩
  have hnew : key ∉ h.keysPool := by
    rw [← hok.find_isSome, hf]
    simp
  have hr : (h.insertNew key obj).Ok := by
    refine hok.replace key _ hb hn ?_ ?_
    · exact List.nodup_append.mpr ⟨hok.poolNodup, List.nodup_singleton key, by
        intro a ha b hb' hab
        rw [List.mem_singleton] at hb'
        exact hnew (hb' ▸ hab ▸ ha)⟩
    · intro k
      rw [List.mem_append, List.mem_singleton]
      by_cases hk : bucketIdx k = bucketIdx key
      · rw [if_pos hk, keys_cons, List.mem_cons, ← find?_isSome, hok.find_bucket key hk,
          hok.find_isSome, or_comm]
      · rw [if_neg hk, or_iff_left]
        rintro rfl
        exact hk rfl
  refine ⟨hr, fun k => ?_⟩
  rw [insertNew, hok.find_replace key hr (fun e he => (hb e he).2) hn, find?_cons]
  by_cases hk : k = key
  · simp [hk]
  · by_cases hi : bucketIdx k = bucketIdx key
    · rw [if_pos hi, if_neg (Ne.symm hk), if_neg hk, hok.find_bucket key hi]
    · rw [if_neg hi, if_neg hk]

omit hok in
theorem map_eq_reset {b : List (Key × ValueObject)} (hb : ∀ e ∈ b, e.1.Clean) (obj : ValueObject) :
    (b.map fun e => if e.1.eq key then (e.1, obj) else e) = reset key obj b := by
  refine List.map_congr_left fun e he => ?_
  have heq := StaticString.eq_iff_of_clean (b := key) (hb e he)
  by_cases hk : e.1 = key
  · rw [if_pos (heq.mpr hk), if_pos hk]
  · rw [if_neg (fun h => hk (heq.mp h)), if_neg hk]

theorem modify_spec (obj : ValueObject) :
    (h.modify key obj).Ok ∧
      ∀ k, (h.modify key obj).find k
        = if k = key then (h.find key).map fun _ => obj else h.find k := by
  have hm := map_eq_reset key (hok.clean_bucket (i := bucketIdx key)) obj
  have hb : ∀ e ∈ reset key obj (bucketAt h.bucket (bucketIdx key)),
      e.1.Clean ∧ bucketIdx e.1 = bucketIdx key := by
    intro e he
    obtain ⟨e', he', rfl⟩ := List.mem_map.mp he
    have h1 := hok.clean_bucket e' he'
    have h2 := hok.placed.placed _ e' he'
    split
    · exact ⟨h1, h2⟩
    · exact ⟨h1, h2⟩
  have hn : (keys (reset key obj (bucketAt h.bucket (bucketIdx key)))).Nodup := by
    rw [keys_reset]
    exact hok.placed.nodup _
  have hr : (h.modify key obj).Ok := by
    rw [modify, hm]
    refine hok.replace key _ hb hn hok.poolNodup fun k => ?_
    rw [keys_reset]
    by_cases hk : bucketIdx k = bucketIdx key
    · rw [if_pos hk, ← find?_isSome, hok.find_bucket key hk, hok.find_isSome]
    · rw [if_neg hk]
  refine ⟨hr, fun k => ?_⟩
  have hr' := hr
  rw [modify, hm] at hr' ⊢
  rw [hok.find_replace key hr' (fun e he => (hb e he).2) hn, find?_reset]
  by_cases hk : k = key
  · subst hk
    rw [if_pos rfl, if_pos rfl, if_pos rfl, hok.find_bucket k rfl]
  · by_cases hi : bucketIdx k = bucketIdx key
    · rw [if_pos hi, if_neg hk, if_neg hk, hok.find_bucket key hi]
    · rw [if_neg hi, if_neg hk]

omit hok in
theorem eraseP_eq_erase {b : List (Key × ValueObject)} (hb : ∀ e ∈ b, e.1.Clean) :
    (b.eraseP fun e => e.1.eq key) = erase key b := by
  induction b with
  | nil => rfl
  | cons e b ih =>
    have he : e.1.eq key = decide (e.1 = key) := by
      rw [Bool.eq_iff_iff, StaticString.eq_iff_of_clean (hb e List.mem_cons_self)]
      simp
    have ih' := ih fun e' he' => hb e' (List.mem_cons_of_mem e he')
    rw [erase, List.eraseP_cons, List.eraseP_cons, he, ih']
    rfl

theorem delete_spec :
    (h.delete key).1.Ok ∧ (h.delete key).2 = (h.find key).isSome ∧
      ∀ k, (h.delete key).1.find k = if k = key then none else h.find k := by
  unfold delete
  cases hf : h.find key with
  | none =>
      refine ⟨hok, rfl, fun k => ?_⟩
      by_cases hk : k = key
      · rw [if_pos hk, hk, hf]
      · rw [if_neg hk]
  | some obj =>
      simp only [eraseP_eq_erase key (hok.clean_bucket (i := bucketIdx key))]
      have hnb := hok.placed.nodup (bucketIdx key)
      have hb : ∀ e ∈ erase key (bucketAt h.bucket (bucketIdx key)),
          e.1.Clean ∧ bucketIdx e.1 = bucketIdx key := by
        intro e he
        have he' := mem_of_mem_erase he
        exact ⟨hok.clean_bucket e he', hok.placed.placed _ e he'⟩
      have hfind : ∀ k, bucketIdx k = bucketIdx key →
          AssocList.find? k (erase key (bucketAt h.bucket (bucketIdx key)))
            = if k = key then none else h.find k := by
        intro k hk
        rw [find?_erase hnb, hok.find_bucket key hk]
      have hpool : ∀ k, k ∈ (h.keysPool.filter fun k => !k.eq key) ↔ k ≠ key ∧ k ∈ h.keysPool := by
        intro k
        rw [List.mem_filter, and_comm]
        refine and_congr_left fun hk => ?_
        have := StaticString.eq_iff_of_clean (b := key) (hok.clean_of_pool k hk)
        simp [← this]
      have hr := hok.replace key (h.keysPool.filter fun k => !k.eq key) hb (nodup_erase hnb)
        (hok.poolNodup.filter _) (by
          intro k
          rw [hpool]
          by_cases hk : bucketIdx k = bucketIdx key
          · rw [if_pos hk, ← find?_isSome, hfind k hk]
            by_cases hkk : k = key
            · simp [hkk]
            · simp [hkk, hok.find_isSome]
          · rw [if_neg hk]
            refine and_iff_right ?_
            rintro rfl
            exact hk rfl)
      refine ⟨hr, rfl, fun k => ?_⟩
      rw [hok.find_replace key hr (fun e he => (hb e he).2) (nodup_erase hnb)]
      by_cases hi : bucketIdx k = bucketIdx key
      · rw [if_pos hi, hfind k hi]
      · rw [if_neg hi, if_neg]
        rintro rfl
        exact hi rfl

end

/-! ## The abstract store -/

/-- The abstract store of a container. -/
def view (h : KVContainer) : Store := fun k => (h.find k).map fun obj => obj.payload.toValue

theorem keyExists_eq (h : KVContainer) (key : Key) : h.keyExists key = (h.view key).isSome := by
  rw [keyExists, view]
  cases h.find key <;> rfl

theorem view_of_find {h : KVContainer} {key : Key} {obj : ValueObject}
    (hf : h.find key = some obj) : h.view key = some obj.payload.toValue := by
  rw [view, hf]
  rfl

theorem view_of_find_none {h : KVContainer} {key : Key} (hf : h.find key = none) :
    h.view key = none := by
  rw [view, hf]
  rfl

@[simp] theorem view_new : new.view = fun _ => none := by
  funext k
  rw [view, ok_new.find_eq]
  simp [new]

/-- `h'` is `h` with `f` applied to what `key` holds. -/
def Acts (h : KVContainer) (key : Key) (f : Cell → Cell) (h' : KVContainer) : Prop :=
  h'.Ok ∧ h'.view = Function.update h.view key (f (h.view key))

/-- An operation that changes visit times only. -/
def Keeps (h h' : KVContainer) : Prop := h'.Ok ∧ h'.view = h.view

section

variable {h : KVContainer} (hok : h.Ok) (key : Key)

include hok

theorem Ok.keeps : Keeps h h := ⟨hok, rfl⟩

theorem Ok.acts_self {f : Cell → Cell} (hf : f (h.view key) = h.view key) : Acts h key f h := by
  refine ⟨hok, ?_⟩
  rw [hf, Function.update_eq_self]

theorem insertNew_acts (hkey : key.Clean) (hf : h.find key = none) {obj : ValueObject}
    {f : Cell → Cell} (hv : f none = some obj.payload.toValue) :
    Acts h key f (h.insertNew key obj) := by
  obtain ⟨hr, hfind⟩ := insertNew_spec hok key hkey hf obj
  refine ⟨hr, funext fun k => ?_⟩
  rw [Function.update_apply, view, hfind, view, hf, Option.map_none, hv]
  split <;> rfl

theorem modify_acts {old obj : ValueObject} (hf : h.find key = some old) {f : Cell → Cell}
    (hv : f (some old.payload.toValue) = some obj.payload.toValue) :
    Acts h key f (h.modify key obj) := by
  obtain ⟨hr, hfind⟩ := modify_spec hok key obj
  refine ⟨hr, funext fun k => ?_⟩
  rw [Function.update_apply, view, hfind, view, hf, Option.map_some, Option.map_some, hv]
  split <;> rfl

/-- Visiting a key whose value stays what it was. -/
theorem revisit_keeps {old obj : ValueObject} (hf : h.find key = some old)
    (hv : obj.payload.toValue = old.payload.toValue) : Keeps h (h.modify key obj) := by
  obtain ⟨hr, hview⟩ := modify_acts hok key (f := id) hf (congrArg some hv.symm)
  refine ⟨hr, ?_⟩
  rw [hview]
  exact Function.update_eq_self key h.view

theorem put_acts (hkey : key.Clean) (obj : ValueObject) :
    Acts h key (fun _ => some obj.payload.toValue) (h.put key obj) := by
  unfold put
  cases hf : h.find key with
  | none => exact insertNew_acts hok key hkey hf rfl
  | some old => exact modify_acts hok key hf rfl

theorem delete_acts : Acts h key (fun _ => none) (h.delete key).1 := by
  obtain ⟨hr, -, hfind⟩ := delete_spec hok key
  refine ⟨hr, funext fun k => ?_⟩
  rw [Function.update_apply, view, hfind]
  split <;> rfl

end

theorem Acts.congr {h h' : KVContainer} {key : Key} {f g : Cell → Cell} (ha : Acts h key f h')
    (hfg : f (h.view key) = g (h.view key)) : Acts h key g h' := ⟨ha.1, by rw [ha.2, hfg]⟩

theorem Acts.trans {h h₁ h₂ : KVContainer} {key : Key} {f g : Cell → Cell} (h1 : Acts h key f h₁)
    (h2 : Acts h₁ key g h₂) : Acts h key (fun c => g (f c)) h₂ := by
  refine ⟨h2.1, ?_⟩
  rw [h2.2, h1.2, Function.update_self, Function.update_idem]

/-- A loop of operations on one key is a loop of cell operations. -/
theorem acts_foldl {ι : Type} (key : Key) (next : KVContainer → ι → KVContainer)
    {f : ι → Cell → Cell} (hnext : ∀ h i, Ok h → Acts h key (f i) (next h i)) (is : List ι) :
    ∀ {h : KVContainer}, h.Ok →
      Acts h key (fun c => is.foldl (fun c i => f i c) c) (is.foldl next h) := by
  induction is with
  | nil => intro h hok; exact hok.acts_self key rfl
  | cons i is ih =>
    intro h hok
    have hi := hnext h i hok
    exact hi.trans (ih hi.1)

/-- Reading a collection out of a payload and out of its value agree. -/
def Compatible {α α' : Type} (proj : Payload → Option α) (proj' : Value → Option α')
    (abs : α → α') : Prop := ∀ p : Payload, proj' p.toValue = (proj p).map abs

theorem compatible_int : Compatible Payload.asInt Value.asInt id := by
  intro p
  cases p <;> rfl

theorem compatible_list : Compatible Payload.asList Value.asList ListObject.toList := by
  intro p
  cases p <;> rfl

theorem compatible_hash : Compatible Payload.asHash Value.asHash DictObject.lookup := by
  intro p
  cases p <;> rfl

theorem compatible_set : Compatible Payload.asSet Value.asSet SetObject.contains := by
  intro p
  cases p <;> rfl

section

variable {h : KVContainer} (hok : h.Ok) (key : Key) {α α' β : Type} {proj : Payload → Option α}
  {proj' : Value → Option α'} {abs : α → α'} (hc : Compatible proj proj' abs)

include hok hc

/-- An operation on a typed key is the cell operation it computes. -/
theorem onType_acts (now : Nat) (missing : β) {f : α → Payload × β} {g : α' → Value}
    (hg : ∀ x, (f x).1.toValue = g (abs x)) :
    Acts h key (fun c => (Cell.onCell proj' g c).1) (h.onType proj now key missing f).1 ∧
      (h.onType proj now key missing f).2.2 = (Cell.onCell proj' g (h.view key)).2 := by
  unfold onType
  cases hf : h.find key with
  | none =>
      have hv := view_of_find_none hf
      rw [hv]
      exact ⟨hok.acts_self key (by rw [hv]; rfl), rfl⟩
  | some obj =>
      have hv := view_of_find hf
      rw [hv]
      cases hp : proj obj.payload with
      | none =>
          have hp' : proj' obj.payload.toValue = none := by rw [hc, hp]; rfl
          simp only [hp]
          refine ⟨hok.acts_self key ?_, ?_⟩
          · simp only [hv, Cell.onCell, hp']
          · simp only [Cell.onCell, hp']
      | some x =>
          have hp' : proj' obj.payload.toValue = some (abs x) := by rw [hc, hp]; rfl
          simp only [hp]
          refine ⟨modify_acts hok key hf ?_, ?_⟩
          · simp only [Cell.onCell, hp', hg]
          · simp only [Cell.onCell, hp']

theorem createOrOnType_acts (hkey : key.Clean) (now : Nat) (fresh : α) (missing : β)
    {f : α → Payload × β} {g : α' → Value} (hg : ∀ x, (f x).1.toValue = g (abs x)) :
    Acts h key (fun c => (Cell.createOnCell proj' (abs fresh) g c).1)
        (h.createOrOnType proj fresh now key missing f).1 ∧
      (h.createOrOnType proj fresh now key missing f).2.2
        = (Cell.createOnCell proj' (abs fresh) g (h.view key)).2 := by
  unfold createOrOnType
  cases hf : h.find key with
  | none =>
      have hv := view_of_find_none hf
      rw [hv]
      refine ⟨insertNew_acts hok key hkey hf ?_, rfl⟩
      simp only [Cell.createOnCell, hg]
  | some obj =>
      have hv := view_of_find hf
      rw [hv]
      cases hp : proj obj.payload with
      | none =>
          have hp' : proj' obj.payload.toValue = none := by rw [hc, hp]; rfl
          simp only [hp]
          refine ⟨hok.acts_self key ?_, ?_⟩
          · simp only [hv, Cell.createOnCell, hp']
          · simp only [Cell.createOnCell, hp']
      | some x =>
          have hp' : proj' obj.payload.toValue = some (abs x) := by rw [hc, hp]; rfl
          simp only [hp]
          refine ⟨modify_acts hok key hf ?_, ?_⟩
          · simp only [Cell.createOnCell, hp', hg]
          · simp only [Cell.createOnCell, hp']

omit hc in
/-- An operation that writes back what the value already was. -/
theorem onType_keeps (now : Nat) (missing : β) {f : α → Payload × β}
    (hg : ∀ p x, proj p = some x → (f x).1.toValue = p.toValue) :
    Keeps h (h.onType proj now key missing f).1 := by
  unfold onType
  cases hf : h.find key with
  | none => exact hok.keeps
  | some obj =>
      cases hp : proj obj.payload with
      | none => simpa only [hp] using hok.keeps
      | some x =>
          simp only [hp]
          exact revisit_keeps hok key hf (hg _ x hp)

end

/-! ## What the collections stand for after several operations -/

theorem toList_pushAll (left : Bool) (values : List Bytes) (o : ListObject) :
    (pushAll o left values).toList = Cell.pushed left values o.toList := by
  induction values generalizing o with
  | nil => cases left <;> simp [pushAll, Cell.pushed]
  | cons v values ih =>
    have hstep : pushAll o left (v :: values) = pushAll (o.push left v) left values := rfl
    rw [hstep, ih]
    cases left <;> simp [Cell.pushed]

theorem lookup_updateAll (fvs : List (Bytes × Bytes)) (o : DictObject) :
    (updateAll o fvs).lookup = Cell.updated fvs o.lookup := by
  induction fvs generalizing o with
  | nil => rfl
  | cons fv fvs ih =>
    have hstep : updateAll o (fv :: fvs) = updateAll (o.update fv.1 fv.2).1 fvs := rfl
    have hone : (o.update fv.1 fv.2).1.lookup = Function.update o.lookup fv.1 (some fv.2) := by
      funext k
      rw [DictObject.lookup_update, Function.update_apply]
    rw [hstep, ih, hone]
    rfl

theorem lookup_atAll (fields : List Bytes) (o : DictObject) :
    (atAll o fields).1.lookup = o.lookup := by
  induction fields generalizing o with
  | nil => rfl
  | cons f fields ih =>
    rw [atAll, ih]
    funext k
    exact DictObject.lookup_at o f k

theorem lookup_eraseFields (fields : List Bytes) (o : DictObject) :
    (eraseFields o fields).1.lookup = Cell.without fields o.lookup := by
  induction fields generalizing o with
  | nil => funext k; simp [eraseFields, Cell.without]
  | cons f fields ih =>
    rw [eraseFields, ih]
    funext k
    simp only [Cell.without, DictObject.lookup_erase, List.mem_cons]
    by_cases hk : k = f
    · simp [hk]
    · simp [hk]

theorem contains_insertAll (members : List Bytes) (o : SetObject) :
    (insertAll o members).1.contains = fun k => decide (k ∈ members) || o.contains k := by
  induction members generalizing o with
  | nil => funext k; simp [insertAll]
  | cons m members ih =>
    rw [insertAll, ih]
    funext k
    rw [SetObject.contains_insert]
    by_cases hk : k = m
    · simp [hk]
    · simp [hk, beq_eq_false_iff_ne.mpr hk]

theorem contains_eraseMembers (members : List Bytes) (o : SetObject) :
    (eraseMembers o members).1.contains = fun k => decide (k ∉ members) && o.contains k := by
  induction members generalizing o with
  | nil => funext k; simp [eraseMembers]
  | cons m members ih =>
    rw [eraseMembers, ih]
    funext k
    rw [SetObject.contains_erase]
    by_cases hk : k = m
    · simp [hk]
    · simp [hk, bne_iff_ne.mpr hk]

/-! ## The operations that write -/

section

variable {h : KVContainer} (hok : h.Ok) (now : Nat) (key : Key)

include hok

theorem addInt_acts (hkey : key.Clean) (change : Int64) (bad : Int64 → Bool) :
    Acts h key (fun c => (Cell.addInt change bad c).1) (h.addInt now key change bad).1 ∧
      (h.addInt now key change bad).2.2 = (Cell.addInt change bad (h.view key)).2 := by
  unfold addInt
  cases hf : h.find key with
  | none =>
      rw [view_of_find_none hf]
      exact ⟨insertNew_acts hok key hkey hf rfl, rfl⟩
  | some obj =>
      have hv := view_of_find hf
      rw [hv]
      cases hp : obj.payload with
      | int n =>
          by_cases hb : bad n = true
          · simp only [hp, Payload.asInt, hb, if_true]
            refine ⟨modify_acts hok key hf ?_, ?_⟩
            · simp [Cell.addInt, hp, Value.asInt, hb, Payload.toValue]
            · simp [Cell.addInt, Value.asInt, hb, Payload.toValue]
          · simp only [hp, Payload.asInt, hb]
            refine ⟨modify_acts hok key hf ?_, ?_⟩
            · simp [Cell.addInt, hp, Value.asInt, hb, Payload.toValue]
            · simp [Cell.addInt, Value.asInt, hb, Payload.toValue]
      | _ =>
          simp only [hp, Payload.asInt]
          exact ⟨hok.acts_self key (by rw [hv, hp]; rfl), rfl⟩

theorem append_acts (hkey : key.Clean) (val : Bytes) :
    Acts h key (fun c => (Cell.append val c).1) (h.append now key val).1 ∧
      (h.append now key val).2.2 = (Cell.append val (h.view key)).2 := by
  unfold append
  cases hf : h.find key with
  | none =>
      rw [view_of_find_none hf]
      exact ⟨insertNew_acts hok key hkey hf rfl, rfl⟩
  | some obj =>
      have hv := view_of_find hf
      rw [hv]
      cases hp : obj.payload with
      | int n =>
          simp only [hp]
          exact ⟨modify_acts hok key hf (by rw [hp]; rfl), rfl⟩
      | string s =>
          simp only [hp]
          exact ⟨modify_acts hok key hf (by rw [hp]; rfl), rfl⟩
      | list o =>
          simp only [hp]
          exact ⟨hok.acts_self key (by rw [hv, hp]; rfl), rfl⟩
      | hash o =>
          simp only [hp]
          exact ⟨hok.acts_self key (by rw [hv, hp]; rfl), rfl⟩
      | set o =>
          simp only [hp]
          exact ⟨hok.acts_self key (by rw [hv, hp]; rfl), rfl⟩

theorem listPush_acts (hkey : key.Clean) (left : Bool) (values : List Bytes) :
    Acts h key (fun c => (Cell.push left values c).1) (h.listPush now key left values).1 ∧
      (h.listPush now key left values).2.2 = (Cell.push left values (h.view key)).2 := by
  have := createOrOnType_acts hok key compatible_list hkey now ListObject.new 0
    (f := fun o => (.list (pushAll o left values), (pushAll o left values).length))
    (g := fun l => .list (Cell.pushed left values l)) (by
      intro o
      rw [← toList_pushAll]
      rfl)
  rwa [ListObject.toList_new] at this

theorem listPop_acts (left : Bool) :
    Acts h key (fun c => (Cell.pop left c).1) (h.listPop now key left).1 ∧
      (h.listPop now key left).2.2 = (Cell.pop left (h.view key)).2 := by
  refine onType_acts hok key compatible_list now none fun o => ?_
  rw [← (o.pop_spec left).1]
  rfl

omit hok in
theorem listPop_popped (left : Bool) :
    (h.listPop now key left).2.1 = Cell.popped left (h.view key) := by
  unfold listPop onType
  cases hf : h.find key with
  | none =>
      rw [view_of_find_none hf]
      rfl
  | some obj =>
      rw [view_of_find hf, Cell.popped, Option.bind_some, compatible_list]
      cases hp : obj.payload.asList with
      | none => simp only [hp, Option.map_none]
      | some o => simp only [hp, Option.map_some, (o.pop_spec left).2]

omit hok in
theorem normIndex_lt {index : Int} (hi : index < 2 ^ 31) (len : Nat) :
    normIndex index len < 2 ^ 31 := by
  unfold normIndex DList.toInt32
  split <;> omega

theorem listSetItemAtIndex_acts {index : Int} (hi : index < 2 ^ 31) (val : Bytes) :
    Acts h key (fun c => (Cell.setIndex index val c).1) (h.listSetItemAtIndex now key index val).1 ∧
      (h.listSetItemAtIndex now key index val).2.2 = (Cell.setIndex index val (h.view key)).2 := by
  unfold listSetItemAtIndex
  cases hf : h.find key with
  | none =>
      have hv := view_of_find_none hf
      rw [hv]
      exact ⟨hok.acts_self key (by rw [hv]; rfl), rfl⟩
  | some obj =>
      have hv := view_of_find hf
      have hc := compatible_list obj.payload
      rw [hv]
      cases hp : obj.payload.asList with
      | none =>
          rw [hp] at hc
          simp only [hp]
          refine ⟨hok.acts_self key ?_, ?_⟩
          · simp only [hv, Cell.setIndex, hc, Option.map_none]
          · simp only [Cell.setIndex, hc, Option.map_none]
      | some o =>
          rw [hp] at hc
          have hlt := normIndex_lt hi o.toList.length
          have hcell : Cell.setIndex index val (some obj.payload.toValue)
              = if normIndex index o.toList.length < 0 then (some obj.payload.toValue, .fail)
                else if (normIndex index o.toList.length).toNat < o.toList.length then
                  (some (.list (o.toList.set (normIndex index o.toList.length).toNat val)), .ok)
                else (some obj.payload.toValue, .outOfRange) := by
            simp only [Cell.setIndex, hc, Option.map_some]
          simp only [hp, ListObject.length_eq]
          generalize normIndex index o.toList.length = i at hlt hcell
          by_cases hneg : i < 0
          · rw [if_pos hneg] at hcell ⊢
            exact ⟨hok.acts_self key (by rw [hv, hcell]), by rw [hcell]⟩
          · rw [if_neg hneg] at hcell ⊢
            have hset := o.setAt_spec (show i.toNat < 2 ^ 31 by omega) val
            cases ho : o.setAt i.toNat val with
            | none =>
                rw [ho, Option.map_none] at hset
                have hge : ¬ i.toNat < o.toList.length := fun hl => by simp [hl] at hset
                rw [if_neg hge] at hcell
                exact ⟨hok.acts_self key (by rw [hv, hcell]), by rw [hcell]⟩
            | some o' =>
                rw [ho, Option.map_some] at hset
                have hl : i.toNat < o.toList.length := by
                  by_contra hl
                  simp [hl] at hset
                rw [if_pos hl, Option.some.injEq] at hset
                rw [if_pos hl, ← hset] at hcell
                exact ⟨modify_acts hok key hf (by rw [hcell]; rfl), by rw [hcell]⟩

theorem hashUpdateKV_acts (hkey : key.Clean) (fvs : List (Bytes × Bytes)) :
    Acts h key (fun c => (Cell.updateFields fvs c).1) (h.hashUpdateKV now key fvs).1 ∧
      (h.hashUpdateKV now key fvs).2.2 = (Cell.updateFields fvs (h.view key)).2 := by
  have := createOrOnType_acts hok key compatible_hash hkey now DictObject.new 0
    (f := fun o => (.hash (updateAll o fvs), fvs.length))
    (g := fun m => .hash (Cell.updated fvs m)) (by
      intro o
      rw [← lookup_updateAll]
      rfl)
  rwa [funext DictObject.lookup_new] at this

omit hok in
/-- A successful `HashUpdateKV` counts its fields. -/
theorem hashUpdateKV_count (h : KVContainer) (now : Nat) (key : Key) (fvs : List (Bytes × Bytes))
    (hcode : (h.hashUpdateKV now key fvs).2.2 = .ok) :
    (h.hashUpdateKV now key fvs).2.1 = fvs.length := by
  unfold hashUpdateKV createOrOnType at hcode ⊢
  split
  · rfl
  · split
    · simp_all
    · rfl

theorem hashDelField_acts (fields : List Bytes) :
    Acts h key (fun c => (Cell.deleteFields fields c).1) (h.hashDelField now key fields).1 ∧
      (h.hashDelField now key fields).2.2 = (Cell.deleteFields fields (h.view key)).2 := by
  refine onType_acts hok key compatible_hash now 0 fun o => ?_
  rw [← lookup_eraseFields]
  rfl

theorem setAddItem_acts (hkey : key.Clean) (members : List Bytes) :
    Acts h key (fun c => (Cell.addMembers members c).1) (h.setAddItem now key members).1 ∧
      (h.setAddItem now key members).2.2 = (Cell.addMembers members (h.view key)).2 := by
  have := createOrOnType_acts hok key compatible_set hkey now SetObject.new 0
    (f := fun o => (.set (insertAll o members).1, (insertAll o members).2))
    (g := fun m => .set fun k => decide (k ∈ members) || m k) (by
      intro o
      rw [← contains_insertAll]
      rfl)
  rwa [funext SetObject.contains_new] at this

theorem setRemoveMembers_acts (members : List Bytes) :
    Acts h key (fun c => (Cell.removeMembers members c).1)
        (h.setRemoveMembers now key members).1 ∧
      (h.setRemoveMembers now key members).2.2 = (Cell.removeMembers members (h.view key)).2 := by
  refine onType_acts hok key compatible_set now 0 fun o => ?_
  rw [← contains_eraseMembers]
  rfl

theorem deleteAll_spec (keys : List Bytes) :
    (h.deleteAll keys).1.Ok ∧ (h.deleteAll keys).1.view
      = fun k => if k ∈ keys.map StaticString.ofStdString then none else h.view k := by
  induction keys generalizing h with
  | nil => exact ⟨hok, by simp [deleteAll]⟩
  | cons key keys ih =>
    obtain ⟨hr, hview⟩ := delete_acts hok (.ofStdString key)
    obtain ⟨hr', hview'⟩ := ih hr
    refine ⟨hr', ?_⟩
    rw [deleteAll, hview', hview]
    funext k
    simp only [List.map_cons, List.mem_cons, Function.update_apply]
    by_cases hk : k = StaticString.ofStdString key
    · simp [hk]
    · simp [hk]

/-! ## The operations that read -/

theorem strLen_keeps : Keeps h (h.strLen now key).1 := by
  unfold strLen
  cases hf : h.find key with
  | none => exact hok.keeps
  | some obj =>
      cases hp : obj.payload with
      | int v =>
          simp only [hp]
          exact revisit_keeps hok key hf (by rw [hp])
      | string s =>
          simp only [hp]
          exact revisit_keeps hok key hf (by rw [hp])
      | _ => simpa only [hp] using hok.keeps

theorem get_keeps : Keeps h (h.get now key).1 := by
  unfold get
  cases hf : h.find key with
  | none => exact hok.keeps
  | some obj =>
      cases hp : obj.payload with
      | int v =>
          simp only [hp]
          exact revisit_keeps hok key hf (by rw [hp])
      | string s =>
          simp only [hp]
          exact revisit_keeps hok key hf (by rw [hp])
      | _ => simpa only [hp] using hok.keeps

/-- Reading a list, a dictionary or a set without changing what it stands for. -/
theorem onList_keeps {β : Type} (missing : β) {f : ListObject → Payload × β}
    (hf : ∀ o, (f o).1.toValue = .list o.toList) :
    Keeps h (h.onType Payload.asList now key missing f).1 :=
  onType_keeps hok key now missing fun p o hp => by
    cases p <;> cases hp
    exact hf o

theorem onHash_keeps {β : Type} (missing : β) {f : DictObject → Payload × β}
    (hf : ∀ o, (f o).1.toValue = .hash o.lookup) :
    Keeps h (h.onType Payload.asHash now key missing f).1 :=
  onType_keeps hok key now missing fun p o hp => by
    cases p <;> cases hp
    exact hf o

theorem onSet_keeps {β : Type} (missing : β) {f : SetObject → Payload × β}
    (hf : ∀ o, (f o).1.toValue = .set o.contains) :
    Keeps h (h.onType Payload.asSet now key missing f).1 :=
  onType_keeps hok key now missing fun p o hp => by
    cases p <;> cases hp
    exact hf o

omit hok in
theorem asList_toValue {p : Payload} {o : ListObject} (hp : p.asList = some o) :
    Payload.toValue (.list o) = p.toValue := by
  cases p <;> cases hp
  rfl

theorem listItemAtIndex_keeps (index : Int) : Keeps h (h.listItemAtIndex now key index).1 := by
  unfold listItemAtIndex
  cases hf : h.find key with
  | none => exact hok.keeps
  | some obj =>
      cases hp : obj.payload.asList with
      | none => simpa only [hp] using hok.keeps
      | some o =>
          simp only [hp]
          have hm : Keeps h (h.modify key ⟨.list o, now⟩) :=
            revisit_keeps hok key hf (asList_toValue hp)
          split
          · exact hok.keeps
          · split
            · exact hm
            · exact hm

theorem listRange_keeps {β : Type} (range : DList → Int → Int → Except DListError (List β))
    (begin_ end_ : Int) : Keeps h (listRangeCommonOperation range h now key begin_ end_).1 := by
  unfold listRangeCommonOperation
  cases hf : h.find key with
  | none => exact hok.keeps
  | some obj =>
      cases hp : obj.payload.asList with
      | none => simpa only [hp] using hok.keeps
      | some o =>
          simp only [hp]
          split
          · exact hok.keeps
          · exact revisit_keeps hok key hf (asList_toValue hp)

theorem hashGetValue_keeps (field : Bytes) : Keeps h (h.hashGetValue now key field).1 := by
  have hk := onHash_keeps hok now key (none : DynamicString)
    (f := fun o => (.hash (o.at_ field).1, (o.at_ field).2)) fun o => by
      rw [Payload.toValue, show (o.at_ field).1.lookup = o.lookup from
        funext fun k => DictObject.lookup_at o field k]
  unfold hashGetValue
  simp only
  split
  · exact hk
  · exact hk

theorem hashGetValues_keeps (fields : List Bytes) :
    Keeps h (h.hashGetValues now key fields).1 :=
  onHash_keeps hok now key [] fun o => by
    simp only [Payload.toValue, lookup_atAll]

theorem setMIsMember_keeps (members : List Bytes) : Keeps h (h.setMIsMember now key members).1 := by
  unfold setMIsMember
  split
  · exact hok.keeps
  · exact onSet_keeps hok now key [] fun o => rfl

end

/-! ## Eviction -/

/-- `h'` is `h` without the keys `ks`, which were all there. -/
structure Removes (h : KVContainer) (ks : List Key) (h' : KVContainer) : Prop where
  ok : h'.Ok
  nodup : ks.Nodup
  present : ∀ k ∈ ks, k ∈ h.keysPool
  find : ∀ k, h'.find k = if k ∈ ks then none else h.find k

theorem Ok.removes_nil {h : KVContainer} (hok : h.Ok) : Removes h [] h :=
  ⟨hok, List.nodup_nil, fun _ hk => absurd hk List.not_mem_nil, fun k => by simp⟩

theorem delete_removes {h : KVContainer} (hok : h.Ok) {key : Key} (hk : key ∈ h.keysPool) :
    Removes h [key] (h.delete key).1 := by
  obtain ⟨hr, -, hfind⟩ := delete_spec hok key
  refine ⟨hr, List.nodup_singleton key, ?_, fun k => ?_⟩
  · intro k hm
    rw [List.mem_singleton.mp hm]
    exact hk
  · rw [hfind]
    simp only [List.mem_singleton]

namespace Removes

variable {h h₁ h₂ : KVContainer} {ks ks' : List Key}

theorem mem_pool (hok : h.Ok) (hr : Removes h ks h₁) (k : Key) :
    k ∈ h₁.keysPool ↔ k ∉ ks ∧ k ∈ h.keysPool := by
  rw [← hr.ok.find_isSome, hr.find, ← hok.find_isSome]
  split
  · rename_i hk; simp [hk]
  · rename_i hk; simp [hk]

theorem trans (hok : h.Ok) (h1 : Removes h ks h₁) (h2 : Removes h₁ ks' h₂) :
    Removes h (ks ++ ks') h₂ := by
  refine ⟨h2.ok, ?_, fun k hk => ?_, fun k => ?_⟩
  · refine List.nodup_append.mpr ⟨h1.nodup, h2.nodup, fun a ha b hb hab => ?_⟩
    exact ((h1.mem_pool hok b).mp (h2.present b hb)).1 (hab ▸ ha)
  · rcases List.mem_append.mp hk with hk | hk
    · exact h1.present k hk
    · exact ((h1.mem_pool hok k).mp (h2.present k hk)).2
  · rw [h2.find, h1.find]
    by_cases hk : k ∈ ks
    · simp [hk]
    · simp [hk]

/-- What is left and what is gone make up the pool. -/
theorem perm_pool (hok : h.Ok) (hr : Removes h ks h₁) : h.keysPool.Perm (ks ++ h₁.keysPool) := by
  refine (List.perm_ext_iff_of_nodup hok.poolNodup ?_).mpr fun k => ?_
  · refine List.nodup_append.mpr ⟨hr.nodup, hr.ok.poolNodup, fun a ha b hb hab => ?_⟩
    exact ((hr.mem_pool hok b).mp hb).1 (hab ▸ ha)
  · rw [List.mem_append, hr.mem_pool hok]
    constructor
    · intro hk
      by_cases hm : k ∈ ks
      · exact Or.inl hm
      · exact Or.inr ⟨hm, hk⟩
    · rintro (hm | ⟨-, hk⟩)
      · exact hr.present k hm
      · exact hk

theorem length_pool (hok : h.Ok) (hr : Removes h ks h₁) :
    ks.length + h₁.keysPool.length = h.keysPool.length := by
  rw [(hr.perm_pool hok).length_eq, List.length_append]

/-- The names of the removed keys give the keys back. -/
theorem map_names (hok : h.Ok) (hr : Removes h ks h₁) :
    (ks.map StaticString.toStdString).map StaticString.ofStdString = ks := by
  rw [List.map_map]
  calc ks.map (StaticString.ofStdString ∘ StaticString.toStdString)
      = ks.map id := List.map_congr_left fun k hk =>
          StaticString.ofStdString_toStdString (hok.clean_of_pool k (hr.present k hk))
    _ = ks := List.map_id ks

theorem view (hr : Removes h ks h₁) : h₁.view = fun k => if k ∈ ks then none else h.view k := by
  funext k
  rw [KVContainer.view, hr.find, KVContainer.view]
  split <;> rfl

end Removes

theorem draw_lt {h : KVContainer} (hne : h.keysPool ≠ []) (e : EvictionEnv) (i : Nat) :
    e.draw i h.keysPool.length < h.keysPool.length :=
  Nat.mod_lt _ (List.length_pos_iff.mpr hne)

/-- A turn of the random policy deletes one key, and reports one name. -/
theorem evictOne_removes {h : KVContainer} (hok : h.Ok) (hne : h.keysPool ≠ []) (e : EvictionEnv)
    (i : Nat) :
    Removes h [h.keysPool.get ⟨_, draw_lt hne e i⟩] (h.evictOne e i).1 ∧
      (h.evictOne e i).2.length = 1 := by
  have hlt := draw_lt hne e i
  rw [List.get_eq_getElem]
  have hmem : h.keysPool[e.draw i h.keysPool.length] ∈ h.keysPool := List.getElem_mem hlt
  have hdel : (h.delete h.keysPool[e.draw i h.keysPool.length]).2 = true := by
    rw [(delete_spec hok _).2.1, hok.find_isSome]
    exact hmem
  simp only [evictOne, List.getElem?_eq_getElem hlt, hdel, if_true, List.length_singleton, and_true]
  exact delete_removes hok hmem

theorem evictRandom_removes (e : EvictionEnv) (num : Nat) : ∀ (i : Nat) {h : KVContainer}, h.Ok →
    num ≤ h.keysPool.length →
    ∃ ks, Removes h ks (evictRandom e num i h).1 ∧ ks.length = num ∧
      (evictRandom e num i h).2.length = num := by
  induction num with
  | zero =>
    intro i h hok _
    exact ⟨[], hok.removes_nil, rfl, rfl⟩
  | succ num ih =>
    intro i h hok hnum
    have hne : h.keysPool ≠ [] := List.length_pos_iff.mp (by omega)
    obtain ⟨hone, hname⟩ := evictOne_removes hok hne e i
    have hleft := hone.length_pool hok
    rw [List.length_singleton] at hleft
    obtain ⟨ks, hks, hlen, hnames⟩ := ih (i + 1) hone.ok (by omega)
    refine ⟨_ :: ks, hone.trans hok hks, by rw [List.length_cons, hlen], ?_⟩
    rw [evictRandom, List.length_append, hname, hnames]
    omega

/-- The candidates of an LRU turn are keys of the pool, and there are some. -/
theorem lruCandidates_spec {h : KVContainer} (hne : h.keysPool ≠ []) (e : EvictionEnv) (i : Nat) :
    h.lruCandidates e i ≠ [] ∧ ∀ c ∈ h.lruCandidates e i, c ∈ h.keysPool := by
  -- the first draw gives a candidate, and no later draw takes one away
  have hrange : List.range 10 = 0 :: List.range' 1 9 := rfl
  rw [lruCandidates, hrange, List.foldl_cons]
  refine List.foldlRecOn (motive := fun cs => cs ≠ [] ∧ ∀ c ∈ cs, c ∈ h.keysPool) _ _ ?_ ?_
  · have hlt := draw_lt hne e (10 * i + 0)
    rw [List.getElem?_eq_getElem hlt]
    simp
  · rintro cs ⟨hsome, hcs⟩ j -
    have hlt := draw_lt hne e (10 * i + j)
    rw [List.getElem?_eq_getElem hlt]
    dsimp only
    split
    · exact ⟨hsome, hcs⟩
    · refine ⟨by simp, fun c hc => ?_⟩
      rcases List.mem_append.mp hc with hc | hc
      · exact hcs c hc
      · rw [List.mem_singleton.mp hc]
        exact List.getElem_mem hlt

/-- The least recently visited candidate is one of them. -/
theorem leastVisited_mem (h : KVContainer) {cs : List Key} (hne : cs ≠ []) :
    ∃ key ∈ cs, h.leastVisited cs = some key := by
  cases cs with
  | nil => exact absurd rfl hne
  | cons c cs =>
    refine ⟨_, ?_, rfl⟩
    have hstep : ∀ (cs : List Key) (best : Key),
        (cs.foldl (fun best k => if h.lvTimeOf k < h.lvTimeOf best then k else best) best)
          ∈ best :: cs := by
      intro cs
      induction cs with
      | nil => intro best; exact List.mem_cons_self
      | cons k cs ih =>
        intro best
        rw [List.foldl_cons]
        have hm := ih (if h.lvTimeOf k < h.lvTimeOf best then k else best)
        rcases List.mem_cons.mp hm with hm | hm
        · rw [hm]
          split <;> simp
        · simp [hm]
    exact hstep cs c

/-- An LRU turn deletes the key it names. -/
theorem evictLruOne_removes {h : KVContainer} (hok : h.Ok) (hne : h.keysPool ≠ [])
    (e : EvictionEnv) (i : Nat) :
    ∃ key, h.leastVisited (h.lruCandidates e i) = some key ∧
      Removes h [key] (h.evictLruOne e i).1 ∧ (h.evictLruOne e i).2 = [key.toStdString] := by
  obtain ⟨hsome, hmem⟩ := lruCandidates_spec hne e i
  obtain ⟨key, hkey, hleast⟩ := h.leastVisited_mem hsome
  have hdel : (h.delete key).2 = true := by
    rw [(delete_spec hok _).2.1, hok.find_isSome]
    exact hmem key hkey
  refine ⟨key, hleast, ?_⟩
  simp only [evictLruOne, hleast, hdel, if_true, and_true]
  exact delete_removes hok (hmem key hkey)

theorem evictLru_removes (e : EvictionEnv) (fuel : Nat) : ∀ (i : Nat) {h : KVContainer}, h.Ok →
    ∃ ks, Removes h ks (evictLru e fuel i h).1 ∧
      (evictLru e fuel i h).2 = ks.map StaticString.toStdString := by
  induction fuel with
  | zero =>
    intro i h hok
    exact ⟨[], hok.removes_nil, rfl⟩
  | succ fuel ih =>
    intro i h hok
    unfold evictLru
    split
    · exact ⟨[], hok.removes_nil, rfl⟩
    · rename_i hne
      obtain ⟨key, -, hone, hname⟩ := evictLruOne_removes hok (by simpa using hne) e i
      dsimp only
      split
      · exact ⟨[key], hone, by rw [hname]; rfl⟩
      · obtain ⟨ks, hks, hnames⟩ := ih (i + 1) hone.ok
        exact ⟨key :: ks, hone.trans hok hks, by rw [hname, hnames]; rfl⟩

theorem evictLru_spec (e : EvictionEnv) (fuel : Nat) (i : Nat) {h : KVContainer} (hok : h.Ok) :
    (evictLru e fuel i h).1.Ok ∧ (evictLru e fuel i h).1.view = fun k =>
      if k ∈ (evictLru e fuel i h).2.map StaticString.ofStdString then none else h.view k := by
  obtain ⟨ks, hks, hnames⟩ := evictLru_removes e fuel i hok
  refine ⟨hks.ok, ?_⟩
  rw [hks.view, hnames, hks.map_names hok]

/-- An eviction deletes as many keys as it reports names. -/
theorem keyEviction_removes {h : KVContainer} (hok : h.Ok) (policy : EvictionPolicy) (n : Nat)
    (e : EvictionEnv) :
    ∃ ks, Removes h ks (h.keyEviction policy n e).1 ∧
      (h.keyEviction policy n e).2.length = ks.length := by
  unfold keyEviction
  split
  · exact ⟨[], hok.removes_nil, rfl⟩
  · cases policy with
    | random =>
        obtain ⟨ks, hks, hlen, hnames⟩ := evictRandom_removes e _ 0 hok (Nat.min_le_left _ n)
        exact ⟨ks, hks, by rw [hnames, hlen]⟩
    | lru =>
        dsimp only
        split
        · exact ⟨[], hok.removes_nil, rfl⟩
        · obtain ⟨ks, hks, hnames⟩ := evictLru_removes e h.keysPool.length 0 hok
          exact ⟨ks, hks, by rw [hnames, List.length_map]⟩

theorem keyEviction_ok {h : KVContainer} (hok : h.Ok) (policy : EvictionPolicy) (n : Nat)
    (e : EvictionEnv) : (h.keyEviction policy n e).1.Ok := by
  obtain ⟨ks, hks, -⟩ := keyEviction_removes hok policy n e
  exact hks.ok

/-! ## Runs of the `std::string` interface -/

/-- The operations, with their keys as the callers write them. -/
inductive Op where
  | setInt (key : Bytes) (intval : Int64)
  | setString (key value : Bytes)
  | incrIntBy (key : Bytes) (increment : Int64)
  | decrIntBy (key : Bytes) (decrement : Int64)
  | strLen (key : Bytes)
  | get (key : Bytes)
  | append (key val : Bytes)
  | listPush (key : Bytes) (left : Bool) (values : List Bytes)
  | listPop (key : Bytes) (left : Bool)
  | listLen (key : Bytes)
  | listItemAtIndex (key : Bytes) (index : Int32)
  | listSetItemAtIndex (key : Bytes) (index : Int32) (val : Bytes)
  | listRange (key : Bytes) (begin_ end_ : Int32)
  | listRangeAsStdString (key : Bytes) (begin_ end_ : Int32)
  | hashUpdateKV (key : Bytes) (fvs : List (Bytes × Bytes))
  | hashUpdateVectors (key : Bytes) (fields values : List Bytes)
  | hashGetValue (key field : Bytes)
  | hashGetValues (key : Bytes) (fields : List Bytes)
  | hashDelField (key : Bytes) (fields : List Bytes)
  | hashExistField (key field : Bytes)
  | hashGetAllEntries (key : Bytes)
  | hashGetAllFields (key : Bytes)
  | hashGetAllValues (key : Bytes)
  | hashLen (key : Bytes)
  | setAddItem (key : Bytes) (members : List Bytes)
  | setIsMember (key member : Bytes)
  | setMIsMember (key : Bytes) (members : List Bytes)
  | setRemoveMembers (key : Bytes) (members : List Bytes)
  | setGetMembers (key : Bytes)
  | setGetMemberCount (key : Bytes)
  | delete (keys : List Bytes)
  | keyEviction (policy : EvictionPolicy) (n : Nat) (env : EvictionEnv)

/-- One operation, at a time. -/
def apply (h : KVContainer) (i : Op × Nat) : KVContainer :=
  match i.1 with
  | .setInt key v => h.setInt i.2 (.ofStdString key) v
  | .setString key v => h.setString i.2 (.ofStdString key) v
  | .incrIntBy key n => (h.incrIntBy i.2 (.ofStdString key) n).1
  | .decrIntBy key n => (h.decrIntBy i.2 (.ofStdString key) n).1
  | .strLen key => (h.strLen i.2 (.ofStdString key)).1
  | .get key => (h.get i.2 (.ofStdString key)).1
  | .append key val => (h.append i.2 (.ofStdString key) val).1
  | .listPush key left values => (h.listPush i.2 (.ofStdString key) left values).1
  | .listPop key left => (h.listPop i.2 (.ofStdString key) left).1
  | .listLen key => (h.listLen i.2 (.ofStdString key)).1
  | .listItemAtIndex key index => (h.listItemAtIndex i.2 (.ofStdString key) index.toInt).1
  | .listSetItemAtIndex key index val =>
      (h.listSetItemAtIndex i.2 (.ofStdString key) index.toInt val).1
  | .listRange key b e => (h.listRange i.2 (.ofStdString key) b.toInt e.toInt).1
  | .listRangeAsStdString key b e =>
      (h.listRangeAsStdString i.2 (.ofStdString key) b.toInt e.toInt).1
  | .hashUpdateKV key fvs => (h.hashUpdateKV i.2 (.ofStdString key) fvs).1
  | .hashUpdateVectors key fields values =>
      (h.hashUpdateVectors i.2 (.ofStdString key) fields values).1
  | .hashGetValue key field => (h.hashGetValue i.2 (.ofStdString key) field).1
  | .hashGetValues key fields => (h.hashGetValues i.2 (.ofStdString key) fields).1
  | .hashDelField key fields => (h.hashDelField i.2 (.ofStdString key) fields).1
  | .hashExistField key field => (h.hashExistField i.2 (.ofStdString key) field).1
  | .hashGetAllEntries key => (h.hashGetAllEntries i.2 (.ofStdString key)).1
  | .hashGetAllFields key => (h.hashGetAllFields i.2 (.ofStdString key)).1
  | .hashGetAllValues key => (h.hashGetAllValues i.2 (.ofStdString key)).1
  | .hashLen key => (h.hashLen i.2 (.ofStdString key)).1
  | .setAddItem key members => (h.setAddItem i.2 (.ofStdString key) members).1
  | .setIsMember key member => (h.setIsMember i.2 (.ofStdString key) member).1
  | .setMIsMember key members => (h.setMIsMember i.2 (.ofStdString key) members).1
  | .setRemoveMembers key members => (h.setRemoveMembers i.2 (.ofStdString key) members).1
  | .setGetMembers key => (h.setGetMembers i.2 (.ofStdString key)).1
  | .setGetMemberCount key => (h.setGetMemberCount i.2 (.ofStdString key)).1
  | .delete keys => (h.deleteAll keys).1
  | .keyEviction policy n env => (h.keyEviction policy n env).1

/-- A container reached through the interface from a new one. The reads that do
not even write a visit time are not operations here. -/
def Reachable (h : KVContainer) : Prop := ∃ ops : List (Op × Nat), ops.foldl apply new = h

theorem apply_ok {h : KVContainer} (hok : h.Ok) (i : Op × Nat) : (h.apply i).Ok := by
  obtain ⟨op, now⟩ := i
  have hc := StaticString.ofStdString_clean
  cases op with
  | setInt key v => exact (put_acts hok _ (hc key) _).1
  | setString key v => exact (put_acts hok _ (hc key) _).1
  | incrIntBy key n => exact (addInt_acts hok now _ (hc key) _ _).1.1
  | decrIntBy key n => exact (addInt_acts hok now _ (hc key) _ _).1.1
  | strLen key => exact (strLen_keeps hok now _).1
  | get key => exact (get_keeps hok now _).1
  | append key val => exact (append_acts hok now _ (hc key) val).1.1
  | listPush key left values => exact (listPush_acts hok now _ (hc key) left values).1.1
  | listPop key left => exact (listPop_acts hok now _ left).1.1
  | listLen key => exact (onList_keeps hok now _ 0 fun _ => rfl).1
  | listItemAtIndex key index => exact (listItemAtIndex_keeps hok now _ _).1
  | listSetItemAtIndex key index val =>
      exact (listSetItemAtIndex_acts hok now _ (Int32.toInt_lt index) val).1.1
  | listRange key b e => exact (listRange_keeps hok now _ _ _ _).1
  | listRangeAsStdString key b e => exact (listRange_keeps hok now _ _ _ _).1
  | hashUpdateKV key fvs => exact (hashUpdateKV_acts hok now _ (hc key) fvs).1.1
  | hashUpdateVectors key fields values =>
      simp only [apply, KVContainer.hashUpdateVectors]
      split
      · exact hok
      · exact (hashUpdateKV_acts hok now _ (hc key) _).1.1
  | hashGetValue key field => exact (hashGetValue_keeps hok now _ field).1
  | hashGetValues key fields => exact (hashGetValues_keeps hok now _ fields).1
  | hashDelField key fields => exact (hashDelField_acts hok now _ fields).1.1
  | hashExistField key field => exact (onHash_keeps hok now _ false fun _ => rfl).1
  | hashGetAllEntries key => exact (onHash_keeps hok now _ [] fun _ => rfl).1
  | hashGetAllFields key => exact (onHash_keeps hok now _ [] fun _ => rfl).1
  | hashGetAllValues key => exact (onHash_keeps hok now _ [] fun _ => rfl).1
  | hashLen key => exact (onHash_keeps hok now _ 0 fun _ => rfl).1
  | setAddItem key members => exact (setAddItem_acts hok now _ (hc key) members).1.1
  | setIsMember key member => exact (onSet_keeps hok now _ false fun _ => rfl).1
  | setMIsMember key members => exact (setMIsMember_keeps hok now _ members).1
  | setRemoveMembers key members => exact (setRemoveMembers_acts hok now _ members).1.1
  | setGetMembers key => exact (onSet_keeps hok now _ [] fun _ => rfl).1
  | setGetMemberCount key => exact (onSet_keeps hok now _ 0 fun _ => rfl).1
  | delete keys => exact (deleteAll_spec hok keys).1
  | keyEviction policy n env => exact keyEviction_ok hok policy n env

theorem foldl_apply_ok (ops : List (Op × Nat)) :
    ∀ {h : KVContainer}, h.Ok → (ops.foldl apply h).Ok := by
  induction ops with
  | nil => intro h hok; exact hok
  | cons i ops ih => intro h hok; exact ih (apply_ok hok i)

theorem Reachable.ok {h : KVContainer} (hr : h.Reachable) : h.Ok := by
  obtain ⟨ops, rfl⟩ := hr
  exact foldl_apply_ok ops ok_new

/-! ## The key pool -/

/-- The pool and the buckets list the same keys, each once. -/
theorem Ok.pool_perm {h : KVContainer} (hok : h.Ok) : h.keysPool.Perm (keys h.bucket.flatten) :=
  (List.perm_ext_iff_of_nodup hok.poolNodup hok.placed.nodup_flatten).mpr hok.pool

theorem Ok.numItems_eq {h : KVContainer} (hok : h.Ok) : h.numItems = h.keysPool.length := by
  rw [hok.pool_perm.length_eq, keys, List.length_map, List.length_flatten]
  rfl

/-- **`keys_pool_` enumerates the store**, after every run of the interface. -/
theorem keysPool_enumerates (ops : List (Op × Nat)) :
    let h := ops.foldl apply new
    h.keysPool.Nodup ∧ h.keysPool.Perm (keys h.bucket.flatten) ∧
      (∀ i, ∀ e ∈ bucketAt h.bucket i, i = e.1.hash % kBucketSize) ∧
      h.numItems = h.keysPool.length := by
  have hok := foldl_apply_ok ops ok_new
  refine ⟨hok.poolNodup, hok.pool_perm, fun i e he => ?_, hok.numItems_eq⟩
  exact (hok.placed.placed i e he).symm

end KVContainer

end LiteKV

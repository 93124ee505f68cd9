import FreeToken.Message.Classes

/-!
# The wire codec round-trips

* `OnWire`: the values that messages are built from, over the classes of a module.
* `Plain`: the encoded form, which has no tensor and no object.
* `tensor_roundTrip`: a tensor is its bytes, its type and its shape.
* `object_roundTrip`: an object is its class and its attributes.
* `onWire_roundTrip`: what is decoded is what was encoded.
-/

namespace FreeToken

open List

/-! ### Dictionaries -/

section Dictionary

variable {d items : List (Text × Value)} {key : Text}

theorem isSome_lookup_iff {β : Type} {d : List (Text × β)} :
    (d.lookup key).isSome ↔ key ∈ d.map Prod.fst := by
  rw [lookup_isSome_iff, mem_map]
  constructor
  · rintro ⟨kv, hkv, heq⟩
    exact ⟨kv, hkv, (beq_iff_eq.mp heq).symm⟩
  · rintro ⟨kv, hkv, rfl⟩
    exact ⟨kv, hkv, beq_self_eq_true _⟩

theorem lookup_of_mem (hnodup : (d.map Prod.fst).Nodup) {kv : Text × Value} (h : kv ∈ d) :
    d.lookup kv.1 = some kv.2 := by
  induction d with
  | nil => exact absurd h not_mem_nil
  | cons first d ih =>
    rw [map_cons, nodup_cons] at hnodup
    rcases List.mem_cons.mp h with rfl | h
    · exact lookup_cons_self
    · have hne : kv.1 ≠ first.1 := by
        intro heq
        exact hnodup.1 (heq ▸ mem_map_of_mem h)
      rw [lookup_cons, beq_false_of_ne hne]
      exact ih hnodup.2 h

theorem setItem_of_notMem {value : Value} (h : key ∉ d.map Prod.fst) :
    setItem d key value = d ++ [(key, value)] := by
  unfold setItem
  exact if_neg fun hsome => h (isSome_lookup_iff.mp hsome)

theorem foldl_setItem (hnodup : ((d ++ items).map Prod.fst).Nodup) :
    items.foldl (fun serialized kv => setItem serialized kv.1 kv.2) d = d ++ items := by
  induction items generalizing d with
  | nil => exact (append_nil d).symm
  | cons kv items ih =>
    have hnew : kv.1 ∉ d.map Prod.fst := by
      rw [map_append, map_cons] at hnodup
      intro hmem
      exact (List.nodup_append.mp hnodup).2.2 _ hmem _ mem_cons_self rfl
    have hassoc : d ++ kv :: items = d ++ [kv] ++ items := by rw [append_assoc, singleton_append]
    rw [foldl_cons, setItem_of_notMem hnew, hassoc]
    exact ih (hassoc ▸ hnodup)

end Dictionary

/-! ### Tensors -/

def Dtype.Supported (dtype : Dtype) : Prop := dtype = .bfloat16 ∨ dtype ∈ Dtype.numpy

theorem Dtype.itemsize_pos (dtype : Dtype) : 0 < dtype.itemsize := by cases dtype <;> decide

variable {elems : List (List UInt8)} {dtype : Dtype} {t : Tensor}

namespace Value

theorem take_drop_flatten {w : ℕ} (h : ∀ e ∈ elems, e.length = w) {i : ℕ}
    (hi : i < elems.length) : (elems.flatten.drop (i * w)).take w = elems[i] := by
  induction elems generalizing i with
  | nil => exact absurd hi (Nat.not_lt_zero i)
  | cons e elems ih =>
    have he := h e mem_cons_self
    rw [flatten_cons]
    cases i with
    | zero => rw [Nat.zero_mul, drop_zero, take_left' he, getElem_cons_zero]
    | succ i =>
      have hdrop : (e ++ elems.flatten).drop ((i + 1) * w) = elems.flatten.drop (i * w) := by
        rw [Nat.succ_mul, Nat.add_comm, ← drop_drop, drop_left' he]
      rw [hdrop, getElem_cons_succ]
      exact ih (fun e' he' => h e' (mem_cons_of_mem e he')) (Nat.lt_of_succ_lt_succ hi)

theorem length_flatten_of_const {w : ℕ} (h : ∀ e ∈ elems, e.length = w) :
    elems.flatten.length = elems.length * w := by
  induction elems with
  | nil => rw [flatten_nil, length_nil, length_nil, Nat.zero_mul]
  | cons e elems ih =>
    rw [flatten_cons, length_append, h e mem_cons_self,
      ih fun e' he' => h e' (mem_cons_of_mem e he'), length_cons, Nat.succ_mul, Nat.add_comm]

theorem frombuffer_flatten (h : ∀ e ∈ elems, e.length = dtype.itemsize) :
    frombuffer elems.flatten dtype = some elems := by
  have hlen := length_flatten_of_const h
  unfold frombuffer
  rw [hlen, if_pos (Nat.mul_mod_left _ _), Nat.mul_div_cancel _ dtype.itemsize_pos]
  congr 1
  apply ext_getElem
  · rw [length_map, length_range]
  · intro i hi hi'
    rw [getElem_map, getElem_range]
    exact take_drop_flatten h hi'

theorem ofNumpy_name (h : dtype.Supported) :
    Text.remove "torch.".toList ("torch.".toList ++ dtype.name) = dtype.name ∧
      ∃ npDtype,
        Dtype.ofNumpy (if dtype.name = "bfloat16".toList then "uint16".toList else dtype.name) =
          some npDtype ∧
        npDtype.itemsize = dtype.itemsize ∧
        (if dtype.name = "bfloat16".toList then Dtype.bfloat16 else npDtype) = dtype := by
  rcases h with rfl | h
  · exact ⟨rfl, .uint16, rfl, rfl, rfl⟩
  · refine ⟨?_, dtype, ?_, rfl, ?_⟩
    · revert dtype
      decide
    · revert dtype
      decide
    · revert dtype
      decide

theorem mapM_toDim (shape : List ℕ) : (shape.map fun n : ℕ => int n).mapM toDim = some shape := by
  induction shape with
  | nil => rfl
  | cons n shape ih =>
    have hdim : toDim (int n) = some n := by
      show (if (0 : ℤ) ≤ n then some (n : ℤ).toNat else Option.none) = some n
      rw [if_pos (Int.natCast_nonneg n), Int.toNat_natCast]
    rw [map_cons, mapM_cons, hdim, ih]
    rfl

theorem viewShape_elems (t : Tensor) : viewShape t.dtype t.elems t.shape = some t := by
  unfold viewShape
  rw [dif_pos ⟨t.length_elems, t.length_elem⟩]

inductive Plain : Value → Prop
  | none : Plain none
  | bool (b : Bool) : Plain (bool b)
  | int (n : ℤ) : Plain (int n)
  | float (bits : UInt64) : Plain (float bits)
  | str (s : Text) : Plain (str s)
  | bytes (b : List UInt8) : Plain (bytes b)
  | list {items : List Value} (h : ∀ v ∈ items, Plain v) : Plain (list items)
  | tuple {items : List Value} (h : ∀ v ∈ items, Plain v) : Plain (tuple items)
  | dict {items : List (Text × Value)} (h : ∀ kv ∈ items, Plain kv.2) : Plain (dict items)

def tensorData (t : Tensor) : List (Text × Value) :=
  [(typeKey, str "Tensor".toList), ("dtype".toList, str ("torch.".toList ++ t.dtype.name))] ++
    (if t.shape.length ≠ 1 then [("shape".toList, list (t.shape.map fun n : ℕ => int n))] else []) ++
    [("buffer".toList, bytes t.elems.flatten)]

theorem serializeTensor_eq (h : t.dtype.Supported) :
    serializeTensor t = some (dict (tensorData t)) := by
  have hsent : t.dtype = .bfloat16 ∨ Dtype.numpy.contains t.dtype :=
    h.imp_right fun hmem => List.contains_iff_mem.mpr hmem
  unfold serializeTensor tensorData
  rw [if_pos hsent]
  by_cases hdim : t.shape.length ≠ 1
  · rw [if_pos hdim, if_pos hdim]
    rfl
  · rw [if_neg hdim, if_neg hdim]
    rfl

theorem plain_tensorData (t : Tensor) : Plain (dict (tensorData t)) := by
  refine .dict fun kv hkv => ?_
  unfold tensorData at hkv
  rw [mem_append, mem_append] at hkv
  rcases hkv with (hkv | hkv) | hkv
  · rcases List.mem_cons.mp hkv with rfl | hkv
    · exact .str _
    · obtain rfl := List.mem_singleton.mp hkv
      exact .str _
  · split_ifs at hkv
    · obtain rfl := List.mem_singleton.mp hkv
      refine .list fun v hv => ?_
      obtain ⟨n, -, rfl⟩ := List.mem_map.mp hv
      exact .int n
    · exact absurd hkv not_mem_nil
  · obtain rfl := List.mem_singleton.mp hkv
    exact .bytes _

theorem tensor_roundTrip (h : t.dtype.Supported) :
    deserializeTensor (tensorData t) = some (tensor t) := by
  obtain ⟨hname, npDtype, hnumpy, hsize, hdtype⟩ := ofNumpy_name h
  have hbuffer : frombuffer t.elems.flatten npDtype = some t.elems :=
    frombuffer_flatten fun e he => (t.length_elem e he).trans hsize.symm
  have hview := viewShape_elems t
  unfold deserializeTensor tensorData
  by_cases hdim : t.shape.length ≠ 1
  · rw [if_pos hdim]
    show (do
      let dtypeStr ← some (Text.remove "torch.".toList ("torch.".toList ++ t.dtype.name))
      let npDtype ← Dtype.ofNumpy (if dtypeStr = "bfloat16".toList then "uint16".toList else dtypeStr)
      let elems ← frombuffer t.elems.flatten npDtype
      let dtype := if dtypeStr = "bfloat16".toList then Dtype.bfloat16 else npDtype
      let shape ← (t.shape.map fun n : ℕ => int n).mapM toDim
      (viewShape dtype elems shape).map tensor) = some (tensor t)
    simp only [hname, hnumpy, hbuffer, hdtype, mapM_toDim, hview, Option.bind_eq_bind,
      Option.bind_some, Option.map_some]
  · -- the shape of one dimension is the number of elements
    have hshape : t.shape = [t.elems.length] := by
      obtain ⟨n, hn⟩ := List.length_eq_one_iff.mp (not_not.mp hdim)
      have hlen := t.length_elems
      rw [hn] at hlen ⊢
      rw [hlen]
      exact congrArg (fun m => [m]) (Nat.mul_one n).symm
    rw [if_neg hdim]
    show (do
      let dtypeStr ← some (Text.remove "torch.".toList ("torch.".toList ++ t.dtype.name))
      let npDtype ← Dtype.ofNumpy (if dtypeStr = "bfloat16".toList then "uint16".toList else dtypeStr)
      let elems ← frombuffer t.elems.flatten npDtype
      let dtype := if dtypeStr = "bfloat16".toList then Dtype.bfloat16 else npDtype
      let shape ← some [elems.length]
      (viewShape dtype elems shape).map tensor) = some (tensor t)
    rw [hshape] at hview
    simp only [hname, hnumpy, hbuffer, hdtype, hview, Option.bind_eq_bind, Option.bind_some,
      Option.map_some]

end Value

/-! ### Objects -/

/-- What the codec relies on of the classes of a module. -/
structure ClassMap.Ok (clsMap : ClassMap) : Prop where
  nodup : (clsMap.map MessageClass.name).Nodup
  tensor : "Tensor".toList ∉ clsMap.map MessageClass.name
  fields : ∀ cls ∈ clsMap, (cls.fields.map Prod.fst).Nodup
  typeKey : ∀ cls ∈ clsMap, typeKey ∉ cls.fields.map Prod.fst

variable {cls : MessageClass}

theorem ClassMap.Ok.find {clsMap : ClassMap} (h : clsMap.Ok) (hcls : cls ∈ clsMap) :
    clsMap.find? (·.name = cls.name) = some cls := by
  have hnodup := h.nodup
  clear h
  induction clsMap with
  | nil => exact absurd hcls not_mem_nil
  | cons first clsMap ih =>
    rw [map_cons, nodup_cons] at hnodup
    rcases List.mem_cons.mp hcls with rfl | hcls
    · exact List.find?_cons_of_pos (decide_eq_true rfl)
    · have hne : first.name ≠ cls.name := by
        intro heq
        exact hnodup.1 (heq ▸ mem_map_of_mem hcls)
      rw [List.find?_cons_of_neg (by simp [hne])]
      exact ih hcls hnodup.2

variable {attrs : List (Text × Value)}

/-- An object is built again from its attributes. -/
theorem MessageClass.new_attrs (hnodup : (cls.fields.map Prod.fst).Nodup)
    (hkeys : attrs.map Prod.fst = cls.fields.map Prod.fst) :
    cls.new attrs = some (.object cls.name attrs) := by
  have hlookup : ∀ kv ∈ attrs, attrs.lookup kv.1 = some kv.2 :=
    fun kv hkv => lookup_of_mem (hkeys ▸ hnodup) hkv
  have hvalues : ∀ (fields : List (Text × Option Value)) (rest : List (Text × Value)),
      rest.map Prod.fst = fields.map Prod.fst → (∀ kv ∈ rest, attrs.lookup kv.1 = some kv.2) →
        fields.mapM (fun field => ((attrs.lookup field.1).or field.2).map (field.1, ·)) =
          some rest := by
    intro fields
    induction fields with
    | nil =>
      intro rest hrest _
      rw [List.map_eq_nil_iff.mp hrest]
      rfl
    | cons field fields ih =>
      intro rest hrest hget
      cases rest with
      | nil => exact absurd hrest (by simp)
      | cons kv rest =>
        obtain ⟨hkey, hrest⟩ := List.cons.inj hrest
        have hfirst := hget kv mem_cons_self
        rw [hkey] at hfirst
        rw [mapM_cons, hfirst, ih rest hrest fun kv' hkv' => hget kv' (mem_cons_of_mem _ hkv')]
        show some ((field.1, kv.2) :: rest) = some (kv :: rest)
        rw [← hkey]
  unfold MessageClass.new
  rw [if_pos, hvalues cls.fields attrs hkeys hlookup]
  · rfl
  · rw [all_eq_true]
    intro kv hkv
    rw [isSome_lookup_iff, ← hkeys]
    exact mem_map_of_mem hkv

variable {items data : List (Text × Value)} {v : Value}

namespace Value

variable {clsMap : ClassMap}

/-- A value that the codec brings back, in a form without tensors and objects. -/
def Returns (clsMap : ClassMap) (v : Value) : Prop :=
  ∃ e, serializeAny v = some e ∧ Plain e ∧ deserializeAny clsMap e = some v

theorem returns_list {items : List Value} (h : ∀ v ∈ items, Returns clsMap v) :
    ∃ encoded, serializeList items = some encoded ∧ (∀ e ∈ encoded, Plain e) ∧
      deserializeList clsMap encoded = some items := by
  induction items with
  | nil => exact ⟨[], rfl, fun e he => absurd he not_mem_nil, rfl⟩
  | cons v items ih =>
    obtain ⟨e, he, hplain, hd⟩ := h v mem_cons_self
    obtain ⟨encoded, hencoded, hall, hitems⟩ := ih fun v' hv' => h v' (mem_cons_of_mem v hv')
    refine ⟨e :: encoded, ?_, List.forall_mem_cons.mpr ⟨hplain, hall⟩, ?_⟩
    · rw [serializeList, he, hencoded]
      rfl
    · rw [deserializeList, hd, hitems]
      rfl

/-- The values of a dictionary come back under their keys. -/
theorem returns_items (h : ∀ kv ∈ items, Returns clsMap kv.2) :
    ∃ encoded, serializeItems items = some encoded ∧ encoded.map Prod.fst = items.map Prod.fst ∧
      (∀ kv ∈ encoded, Plain kv.2) ∧ deserializeItems clsMap encoded = some items := by
  induction items with
  | nil => exact ⟨[], rfl, rfl, fun e he => absurd he not_mem_nil, rfl⟩
  | cons kv items ih =>
    obtain ⟨key, v⟩ := kv
    obtain ⟨e, he, hplain, hd⟩ := h (key, v) mem_cons_self
    obtain ⟨encoded, hencoded, hkeys, hall, hitems⟩ :=
      ih fun kv' hkv' => h kv' (mem_cons_of_mem _ hkv')
    refine ⟨(key, e) :: encoded, ?_, ?_, List.forall_mem_cons.mpr ⟨hplain, hall⟩, ?_⟩
    · rw [serializeItems, he, hencoded]
      rfl
    · rw [map_cons, map_cons, hkeys]
    · rw [deserializeItems, hd, hitems]
      rfl

theorem deserializeKwargs_eq (h : typeKey ∉ data.map Prod.fst) :
    deserializeKwargs clsMap data = deserializeItems clsMap data := by
  induction data with
  | nil => rfl
  | cons kv data ih =>
    obtain ⟨key, v⟩ := kv
    rw [map_cons, mem_cons, not_or] at h
    rw [deserializeKwargs, deserializeItems, if_neg fun heq => h.1 heq.symm, ih h.2]

theorem returns_dict (h : ∀ kv ∈ items, Returns clsMap kv.2) :
    Returns clsMap (dict items) := by
  obtain ⟨encoded, hencoded, -, hplain, hitems⟩ := returns_items h
  by_cases hkeys : (encoded.lookup typeKey).isSome ∨ (encoded.lookup rawDictKey).isSome
  · refine ⟨dict [(rawDictKey, dict encoded)], ?_,
      .dict (List.forall_mem_singleton.mpr (.dict hplain)), ?_⟩
    · rw [serializeAny, hencoded, Option.map_some, if_pos hkeys]
    · have hraw : [(rawDictKey, dict encoded)].length = 1 ∧
          ([(rawDictKey, dict encoded)].lookup rawDictKey).isSome := ⟨rfl, rfl⟩
      rw [deserializeAny, if_pos hraw, deserializeRaw, hitems]
      rfl
  · rw [not_or] at hkeys
    refine ⟨dict encoded, ?_, .dict hplain, ?_⟩
    · rw [serializeAny, hencoded, Option.map_some, if_neg (not_or.mpr hkeys)]
    · rw [deserializeAny, if_neg fun h => hkeys.2 h.2, if_neg hkeys.1, hitems]
      rfl

theorem deserializeAny_typed :
    deserializeAny clsMap (dict ((typeKey, v) :: data)) =
      deserializeType clsMap ((typeKey, v) :: data) := by
  have hraw :
      ¬(((typeKey, v) :: data).length = 1 ∧ (((typeKey, v) :: data).lookup rawDictKey).isSome) := by
    rintro ⟨hlen, hsome⟩
    obtain rfl : data = [] := List.length_eq_zero_iff.mp (Nat.succ_injective hlen)
    have hnone : ([(typeKey, v)] : List (Text × Value)).lookup rawDictKey = Option.none := rfl
    rw [hnone] at hsome
    exact absurd hsome (by decide)
  rw [deserializeAny, if_neg hraw, if_pos (by rw [lookup_cons_self]; rfl)]
  rfl

theorem returns_object (hmap : clsMap.Ok) (hcls : cls ∈ clsMap)
    (hkeys : attrs.map Prod.fst = cls.fields.map Prod.fst) (h : ∀ kv ∈ attrs, Returns clsMap kv.2) :
    ∃ data, serializeType (object cls.name attrs) = some (dict ((typeKey, str cls.name) :: data)) ∧
      (∀ kv ∈ data, Plain kv.2) ∧
      deserializeType clsMap ((typeKey, str cls.name) :: data) = some (object cls.name attrs) := by
  obtain ⟨encoded, hencoded, hsame, hplain, hitems⟩ := returns_items h
  have hnodup := hmap.fields cls hcls
  have hnew : typeKey ∉ encoded.map Prod.fst := by
    rw [hsame, hkeys]
    exact hmap.typeKey cls hcls
  refine ⟨encoded, ?_, hplain, ?_⟩
  · have hall : (([(typeKey, str cls.name)] ++ encoded).map Prod.fst).Nodup := by
      rw [singleton_append, map_cons, nodup_cons]
      refine ⟨hnew, ?_⟩
      rw [hsame, hkeys]
      exact hnodup
    rw [serializeType, hencoded, Option.map_some, serializeObject, foldl_setItem hall]
    rfl
  · have hname : cls.name ≠ "Tensor".toList := by
      intro heq
      exact hmap.tensor (heq ▸ mem_map_of_mem hcls)
    have hkwargs : deserializeKwargs clsMap ((typeKey, str cls.name) :: encoded) = some attrs := by
      rw [deserializeKwargs, if_pos rfl, deserializeKwargs_eq hnew, hitems]
    unfold deserializeType deserializeWith
    rw [lookup_cons_self, hkwargs]
    dsimp only
    rw [if_neg hname, hmap.find hcls]
    exact MessageClass.new_attrs hnodup hkeys

/-- The values that messages are built from: an object has the fields of a class of the module. -/
inductive OnWire (clsMap : ClassMap) : Value → Prop
  | none : OnWire clsMap none
  | bool (b : Bool) : OnWire clsMap (bool b)
  | int (n : ℤ) : OnWire clsMap (int n)
  | float (bits : UInt64) : OnWire clsMap (float bits)
  | str (s : Text) : OnWire clsMap (str s)
  | bytes (b : List UInt8) : OnWire clsMap (bytes b)
  | list {items : List Value} (h : ∀ v ∈ items, OnWire clsMap v) : OnWire clsMap (list items)
  | tuple {items : List Value} (h : ∀ v ∈ items, OnWire clsMap v) : OnWire clsMap (tuple items)
  | dict {items : List (Text × Value)} (hnodup : (items.map Prod.fst).Nodup)
      (h : ∀ kv ∈ items, OnWire clsMap kv.2) : OnWire clsMap (dict items)
  | tensor {t : Tensor} (h : t.dtype.Supported) : OnWire clsMap (tensor t)
  | object {cls : MessageClass} (hcls : cls ∈ clsMap) {attrs : List (Text × Value)}
      (hkeys : attrs.map Prod.fst = cls.fields.map Prod.fst)
      (h : ∀ kv ∈ attrs, OnWire clsMap kv.2) :
      OnWire clsMap (object cls.name attrs)

theorem returns_of_onWire (hmap : clsMap.Ok) (h : OnWire clsMap v) : Returns clsMap v := by
  induction h with
  | none => exact ⟨none, rfl, .none, rfl⟩
  | bool b => exact ⟨bool b, rfl, .bool b, rfl⟩
  | int n => exact ⟨int n, rfl, .int n, rfl⟩
  | float bits => exact ⟨float bits, rfl, .float bits, rfl⟩
  | str s => exact ⟨str s, rfl, .str s, rfl⟩
  | bytes b => exact ⟨bytes b, rfl, .bytes b, rfl⟩
  | @list items _ ih =>
    obtain ⟨encoded, hencoded, hplain, hitems⟩ := returns_list ih
    refine ⟨list encoded, ?_, .list hplain, ?_⟩
    · rw [serializeAny, hencoded]
      rfl
    · rw [deserializeAny, hitems]
      rfl
  | @tuple items _ ih =>
    obtain ⟨encoded, hencoded, hplain, hitems⟩ := returns_list ih
    refine ⟨tuple encoded, ?_, .tuple hplain, ?_⟩
    · rw [serializeAny, hencoded]
      rfl
    · rw [deserializeAny, hitems]
      rfl
  | dict _ _ ih => exact returns_dict ih
  | @tensor t ht =>
    refine ⟨dict (tensorData t), serializeTensor_eq ht, plain_tensorData t, ?_⟩
    exact deserializeAny_typed.trans (tensor_roundTrip ht)
  | @object cls hcls attrs hkeys _ ih =>
    obtain ⟨data, hs, hplain, hd⟩ := returns_object hmap hcls hkeys ih
    refine ⟨_, hs, .dict (List.forall_mem_cons.mpr ⟨.str _, hplain⟩), ?_⟩
    exact deserializeAny_typed.trans hd

/-! ### The classes of the message modules -/

theorem ok_backendClasses : backendClasses.Ok := ⟨by decide, by decide, by decide, by decide⟩

theorem ok_tokenizerClasses : tokenizerClasses.Ok := ⟨by decide, by decide, by decide, by decide⟩

theorem ok_frontendClasses : frontendClasses.Ok := ⟨by decide, by decide, by decide, by decide⟩

/-- **The wire codec round-trips**: with the classes of each message module, a value of any depth
has an encoded form without tensors and objects, and that is decoded to the value.  So is a message
by the encoder and the decoder of its module. -/
theorem onWire_roundTrip
    (hmap : clsMap = backendClasses ∨ clsMap = tokenizerClasses ∨ clsMap = frontendClasses)
    (h : OnWire clsMap v) :
    (∃ e, serializeAny v = some e ∧ Plain e ∧ deserializeAny clsMap e = some v) ∧
      ∀ cls attrs, v = object cls attrs →
        ∃ data, serializeType v = some (dict data) ∧ deserializeType clsMap data = some v := by
  have hok : clsMap.Ok := by
    rcases hmap with rfl | rfl | rfl
    · exact ok_backendClasses
    · exact ok_tokenizerClasses
    · exact ok_frontendClasses
  refine ⟨returns_of_onWire hok h, ?_⟩
  rintro cls attrs rfl
  cases h with
  | object hcls hkeys hattrs =>
    obtain ⟨data, hs, -, hd⟩ :=
      returns_object hok hcls hkeys fun kv hkv => returns_of_onWire hok (hattrs kv hkv)
    exact ⟨_, hs, hd⟩

/-- A request of the scheduler, with a `bfloat16` tensor of two dimensions, an empty one, a tuple,
and a client's dictionary with the keys of the codec. -/
theorem onWire_roundTrip_mmItem : ∃ data, serializeType
    (object "MMItem".toList
      [("modality".toList, str "image".toList), ("hash".toList, int 7), ("pad_value".toList, int (-1)),
        ("offsets".toList, list [tuple [int 0, int 2]]),
        ("feature".toList, tensor ⟨.bfloat16, [1, 2], [[1, 2], [3, 4]], by decide, by decide⟩),
        ("precomputed_embeddings".toList, tensor ⟨.float32, [0, 3], [], by decide, by decide⟩),
        ("model_specific_data".toList, dict [(typeKey, str "UserMsg".toList), (rawDictKey, none)])]) =
      some (dict data) ∧ deserializeType backendClasses data =
    some (object "MMItem".toList
      [("modality".toList, str "image".toList), ("hash".toList, int 7), ("pad_value".toList, int (-1)),
        ("offsets".toList, list [tuple [int 0, int 2]]),
        ("feature".toList, tensor ⟨.bfloat16, [1, 2], [[1, 2], [3, 4]], by decide, by decide⟩),
        ("precomputed_embeddings".toList, tensor ⟨.float32, [0, 3], [], by decide, by decide⟩),
        ("model_specific_data".toList, dict [(typeKey, str "UserMsg".toList), (rawDictKey, none)])]) := by
  have hcls : MessageClass.mmItem ∈ backendClasses := mem_of_getElem? (i := 4) rfl
  refine (onWire_roundTrip (Or.inl rfl) (.object hcls rfl ?_)).2 _ _ rfl
  refine List.forall_mem_cons.mpr
    ⟨.str _, List.forall_mem_cons.mpr
    ⟨.int 7, List.forall_mem_cons.mpr
    ⟨.int (-1), List.forall_mem_cons.mpr
    ⟨?_, List.forall_mem_cons.mpr
    ⟨.tensor (Or.inl rfl), List.forall_mem_cons.mpr ⟨?_, List.forall_mem_singleton.mpr ?_⟩⟩⟩⟩⟩⟩
  · exact .list (List.forall_mem_singleton.mpr
      (.tuple (List.forall_mem_cons.mpr ⟨.int 0, List.forall_mem_singleton.mpr (.int 2)⟩)))
  · exact .tensor (Or.inr (by decide))
  · exact .dict (by decide) (List.forall_mem_cons.mpr ⟨.str _, List.forall_mem_singleton.mpr .none⟩)

end Value

end FreeToken

import FreeToken.Utils.Text

/-!
# The wire codec

Messages between the processes are built from values, tensors and objects of the registered classes.
`serialize_type` and `deserialize_type` go between these and values without tensors and objects,
which `msgpack` packs.
-/

namespace FreeToken

/-- `torch.dtype`. -/
inductive Dtype where
  | bool
  | uint8
  | uint16
  | uint32
  | uint64
  | int8
  | int16
  | int32
  | int64
  | float16
  | bfloat16
  | float32
  | float64
  | complex32
  | complex64
  | complex128
  | float8_e4m3fn
  | float8_e5m2
deriving DecidableEq, Repr

namespace Dtype

/-- `str(dtype)`, behind `torch.`. -/
def name : Dtype → Text
  | bool => "bool".toList
  | uint8 => "uint8".toList
  | uint16 => "uint16".toList
  | uint32 => "uint32".toList
  | uint64 => "uint64".toList
  | int8 => "int8".toList
  | int16 => "int16".toList
  | int32 => "int32".toList
  | int64 => "int64".toList
  | float16 => "float16".toList
  | bfloat16 => "bfloat16".toList
  | float32 => "float32".toList
  | float64 => "float64".toList
  | complex32 => "complex32".toList
  | complex64 => "complex64".toList
  | complex128 => "complex128".toList
  | float8_e4m3fn => "float8_e4m3fn".toList
  | float8_e5m2 => "float8_e5m2".toList

def itemsize : Dtype → ℕ
  | bool | uint8 | int8 | float8_e4m3fn | float8_e5m2 => 1
  | uint16 | int16 | float16 | bfloat16 => 2
  | uint32 | int32 | float32 | complex32 => 4
  | uint64 | int64 | float64 | complex64 => 8
  | complex128 => 16

/-- The types that numpy has too, under the same names. -/
def numpy : List Dtype :=
  [bool, uint8, uint16, uint32, uint64, int8, int16, int32, int64, float16, float32, float64,
    complex64, complex128]

/-- `getattr(np, name)`. -/
def ofNumpy (name : Text) : Option Dtype := numpy.find? (·.name = name)

end Dtype

def numel (shape : List ℕ) : ℕ := shape.foldr (· * ·) 1

/-- A tensor on the CPU: the bytes of its elements, in row-major order. -/
structure Tensor where
  dtype : Dtype
  shape : List ℕ
  elems : List (List UInt8)
  length_elems : elems.length = numel shape
  length_elem : ∀ e ∈ elems, e.length = dtype.itemsize

/-- A value of a message.  Of a float the bits are kept, and of an object its class and its
attributes. -/
inductive Value where
  | none
  | bool (b : Bool)
  | int (n : ℤ)
  | float (bits : UInt64)
  | str (s : Text)
  | bytes (b : List UInt8)
  | list (items : List Value)
  | tuple (items : List Value)
  | dict (items : List (Text × Value))
  | tensor (t : Tensor)
  | object (cls : Text) (attrs : List (Text × Value))

/-- A message class: its name, and its fields with their defaults. -/
structure MessageClass where
  name : Text
  fields : List (Text × Option Value)

/-- `cls_map`: the classes of a module. -/
abbrev ClassMap := List MessageClass

/-- `cls(**kwargs)`: an unknown field, or one without a value, is an error. -/
def MessageClass.new (cls : MessageClass) (kwargs : List (Text × Value)) : Option Value :=
  if kwargs.all fun kv => (cls.fields.lookup kv.1).isSome then
    (cls.fields.mapM fun field =>
      ((kwargs.lookup field.1).or field.2).map (field.1, ·)).map (Value.object cls.name)
  else none

def typeKey : Text := "__type__".toList

def rawDictKey : Text := "__raw_dict__".toList

/-- `d[key] = value`. -/
def setItem (d : List (Text × Value)) (key : Text) (value : Value) : List (Text × Value) :=
  if (d.lookup key).isSome then d.map fun kv => if kv.1 = key then (key, value) else kv
  else d ++ [(key, value)]

namespace Value

/-- The tensor branch of `serialize_type`: numpy has no `bfloat16`, and its raw bytes are sent. -/
def serializeTensor (t : Tensor) : Option Value :=
  let serialized := [(typeKey, str "Tensor".toList), ("dtype".toList, str ("torch.".toList ++ t.dtype.name))]
  let serialized :=
    if t.shape.length ≠ 1 then
      setItem serialized "shape".toList (list (t.shape.map fun n : ℕ => int n))
    else serialized
  if t.dtype = .bfloat16 ∨ Dtype.numpy.contains t.dtype then
    some (dict (setItem serialized "buffer".toList (bytes t.elems.flatten)))
  else none

/-- What `serialize_type` makes of the serialized attributes of an object. -/
def serializeObject (cls : Text) (attrs : List (Text × Value)) : Value :=
  dict (attrs.foldl (fun serialized kv => setItem serialized kv.1 kv.2) [(typeKey, str cls)])

mutual

def serializeAny : Value → Option Value
  | dict items => (serializeItems items).map fun encoded =>
      if (encoded.lookup typeKey).isSome ∨ (encoded.lookup rawDictKey).isSome then dict
        [(rawDictKey, dict encoded)]
      else dict encoded
  | list items => (serializeList items).map list
  | tuple items => (serializeList items).map tuple
  | tensor t => serializeTensor t
  | object cls attrs => (serializeItems attrs).map (serializeObject cls)
  | v => some v

def serializeList : List Value → Option (List Value)
  | [] => some []
  | v :: items => (serializeAny v).bind fun e => (serializeList items).map (e :: ·)

def serializeItems : List (Text × Value) → Option (List (Text × Value))
  | [] => some []
  | (k, v) :: items => (serializeAny v).bind fun e => (serializeItems items).map ((k, e) :: ·)

end

def serializeType : Value → Option Value
  | tensor t => serializeTensor t
  | object cls attrs => (serializeItems attrs).map (serializeObject cls)
  | _ => Option.none

/-- `np.frombuffer`. -/
def frombuffer (buffer : List UInt8) (dtype : Dtype) : Option (List (List UInt8)) :=
  if buffer.length % dtype.itemsize = 0 then
    some ((List.range (buffer.length / dtype.itemsize)).map fun i =>
      (buffer.drop (i * dtype.itemsize)).take dtype.itemsize)
  else Option.none

def toDim : Value → Option ℕ
  | int n => if 0 ≤ n then some n.toNat else Option.none
  | _ => Option.none

/-- `tensor.view(shape)`, of a tensor of one dimension. -/
def viewShape (dtype : Dtype) (elems : List (List UInt8)) (shape : List ℕ) : Option Tensor :=
  if h : elems.length = numel shape ∧ ∀ e ∈ elems, e.length = dtype.itemsize then
    some ⟨dtype, shape, elems, h.1, h.2⟩
  else Option.none

/-- The tensor branch of `deserialize_type`. -/
def deserializeTensor (data : List (Text × Value)) : Option Value := do
  let buffer ← match data.lookup "buffer".toList with
    | some (bytes b) => some b
    | _ => Option.none
  let dtypeStr ← match data.lookup "dtype".toList with
    | some (str s) => some (Text.remove "torch.".toList s)
    | _ => Option.none
  let npDtype ← Dtype.ofNumpy (if dtypeStr = "bfloat16".toList then "uint16".toList else dtypeStr)
  let elems ← frombuffer buffer npDtype
  let dtype := if dtypeStr = "bfloat16".toList then Dtype.bfloat16 else npDtype
  let shape ← match data.lookup "shape".toList with
    | Option.none | some none => some [elems.length]
    | some (list dims) => dims.mapM toDim
    | _ => Option.none
  (viewShape dtype elems shape).map tensor

/-- `deserialize_type`, with the deserialized fields. -/
def deserializeWith (clsMap : ClassMap) (data : List (Text × Value))
    (kwargs : Option (List (Text × Value))) :
    Option Value :=
  match data.lookup typeKey with
  | some (str typeName) =>
    if typeName = "Tensor".toList then deserializeTensor data
    else (clsMap.find? (·.name = typeName)).bind fun cls => kwargs.bind cls.new
  | _ => Option.none

mutual

def deserializeAny (clsMap : ClassMap) : Value → Option Value
  | dict data =>
    if data.length = 1 ∧ (data.lookup rawDictKey).isSome then deserializeRaw clsMap data
    else if (data.lookup typeKey).isSome then deserializeWith clsMap data
      (deserializeKwargs clsMap data)
    else (deserializeItems clsMap data).map dict
  | list items => (deserializeList clsMap items).map list
  | tuple items => (deserializeList clsMap items).map tuple
  | tensor _ | object _ _ => Option.none
  | v => some v

/-- The dictionary under the only key of an escaped one. -/
def deserializeRaw (clsMap : ClassMap) : List (Text × Value) → Option Value
  | [(_, dict inner)] => (deserializeItems clsMap inner).map dict
  | _ => Option.none

def deserializeKwargs (clsMap : ClassMap) : List (Text × Value) → Option (List (Text × Value))
  | [] => some []
  | (k, v) :: data =>
    if k = typeKey then deserializeKwargs clsMap data
    else (deserializeAny clsMap v).bind fun d => (deserializeKwargs clsMap data).map ((k, d) :: ·)

def deserializeList (clsMap : ClassMap) : List Value → Option (List Value)
  | [] => some []
  | v :: items => (deserializeAny clsMap v).bind fun d => (deserializeList clsMap items).map
    (d :: ·)

def deserializeItems (clsMap : ClassMap) : List (Text × Value) → Option (List (Text × Value))
  | [] => some []
  | (k, v) :: items => (deserializeAny clsMap v).bind fun d => (deserializeItems clsMap items).map
    ((k, d) :: ·)

end

def deserializeType (clsMap : ClassMap) (data : List (Text × Value)) : Option Value :=
  deserializeWith clsMap data (deserializeKwargs clsMap data)

end Value

end FreeToken

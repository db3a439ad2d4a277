import Famicom.Proofs.Canonical

/-!
# Sequences of values

Values of any types that are written one after the other are read back in their order, whatever
follows them. Conversely the values that were read tell the bytes that they were read from, unless
truth values are among them: any byte but zero is a spelling of true.
-/

namespace Famicom.Codec

/-! ## Bytes of a number -/

/-- Only as many low bytes as are written matter. -/
theorem littleEndian_mod (width n : Nat) :
    littleEndian width (n % 256 ^ width) = littleEndian width n := by
  induction width generalizing n with
  | zero => rfl
  | succ width ih =>
    have low : UInt8.ofNat (n % 256 ^ (width + 1)) = UInt8.ofNat n := by
      rw [← UInt8.toNat_inj, UInt8.toNat_ofNat', UInt8.toNat_ofNat', Nat.pow_succ']
      exact Nat.mod_mul_right_mod n 256 (256 ^ width)
    have high : n % 256 ^ (width + 1) / 256 = n / 256 % 256 ^ width := by
      rw [Nat.pow_succ']
      exact Nat.mod_mul_right_div_self n 256 (256 ^ width)
    rw [littleEndian, littleEndian, low, high, ih]

theorem littleEndian_ofLittleEndian (bytes : List UInt8) :
    littleEndian bytes.length (ofLittleEndian bytes) = bytes := by
  induction bytes with
  | nil => rfl
  | cons b rest ih =>
    have hb := b.toNat_lt
    have low : UInt8.ofNat (b.toNat + 256 * ofLittleEndian rest) = b := by
      rw [← UInt8.toNat_inj, UInt8.toNat_ofNat']
      omega
    have high : (b.toNat + 256 * ofLittleEndian rest) / 256 = ofLittleEndian rest := by
      omega
    rw [ofLittleEndian, List.length_cons, littleEndian, low, high, ih]

/-! ## Exact readers -/

variable {α γ : Type}

/-- The bytes that the reader took are those that are written for its answer. -/
def Exact (reader : Reader α) (write : α → List UInt8) : Prop :=
  ∀ ⦃buffer value rest⦄, reader buffer = .ok value rest → write value ++ rest = buffer

namespace Exact

variable {reader : Reader α} {write : α → List UInt8} {whole : γ → List UInt8}

/-- The bytes of the first part come back in front of those that the second part has read. -/
theorem bind {next : α → Reader γ} (h : Exact reader write)
    (hn : ∀ ⦃value buffer result rest⦄, next value buffer = .ok result rest →
      whole result ++ rest = write value ++ buffer) :
    Exact (reader >>= next) whole := by
  intro buffer result rest hb
  obtain ⟨value, mid, hr, hb⟩ := of_bind_ok hb
  rw [hn hb]
  exact h hr

theorem map {f : α → γ} (h : Exact reader write) (hf : ∀ value, whole (f value) = write value) :
    Exact (do return f (← reader)) whole :=
  h.bind fun value _ _ _ hb => by
    cases hb
    rw [hf]

end Exact

theorem take_exact (n : Nat) : Exact (take n) Vector.toList := by
  intro buffer value rest h
  unfold take at h
  split at h
  · cases h
    exact List.take_append_drop n buffer
  · cases h

theorem readNat_exact (width : Nat) : Exact (readNat width) (littleEndian width) :=
  (take_exact width).map fun bytes => by
    have hbytes := littleEndian_ofLittleEndian bytes.toList
    rwa [Vector.length_toList] at hbytes

/-- A word stands for all numbers with its low bytes, and these are what is written. -/
theorem word_exact {width : Nat} {toNat : α → Nat} {ofNat : Nat → α}
    (h : ∀ n, toNat (ofNat n) = n % 256 ^ width) :
    Exact (do return ofNat (← readNat width)) fun word => littleEndian width (toNat word) :=
  (readNat_exact width).map fun n => by rw [h, littleEndian_mod]

namespace Format

theorem u8_exact : Exact u8.read u8.write := word_exact fun _ => UInt8.toNat_ofNat'

theorem u16_exact : Exact u16.read u16.write := word_exact fun _ => UInt16.toNat_ofNat'

theorem u32_exact : Exact u32.read u32.write := word_exact fun _ => UInt32.toNat_ofNat'

theorem u64_exact : Exact u64.read u64.write := word_exact fun _ => UInt64.toNat_ofNat'

theorem i8_exact : Exact i8.read i8.write :=
  u8_exact.map fun word => congrArg u8.write word.toUInt8_toInt8

theorem i16_exact : Exact i16.read i16.write :=
  u16_exact.map fun word => congrArg u16.write word.toUInt16_toInt16

theorem i32_exact : Exact i32.read i32.write :=
  u32_exact.map fun word => congrArg u32.write word.toUInt32_toInt32

theorem i64_exact : Exact i64.read i64.write :=
  u64_exact.map fun word => congrArg u64.write word.toUInt64_toInt64

theorem bytes_exact : Exact bytes.read bytes.write := by
  refine (readNat_exact 8).bind fun size buffer result rest h => ?_
  obtain ⟨content, _, hcontent, h⟩ := of_bind_ok h
  cases h
  show littleEndian 8 content.toArray.size ++ content.toList ++ rest = _
  rw [content.size_toArray, List.append_assoc, take_exact size hcontent]

theorem memory_exact (n : Nat) : Exact (memory n).read (memory n).write := by
  refine (readNat_exact 8).bind fun size buffer result rest h => ?_
  split at h
  · rename_i same
    show littleEndian 8 result.toArray.size ++ result.toList ++ rest = _
    rw [result.size_toArray, same, List.append_assoc, take_exact n h]
  · cases h

/-! ## Signed integers -/

theorem i8_reads (v : Int8) : Reads i8.read (i8.write v) v :=
  ((u8_reads v.toUInt8).map UInt8.toInt8).congr rfl v.toInt8_toUInt8

theorem i16_reads (v : Int16) : Reads i16.read (i16.write v) v :=
  ((u16_reads v.toUInt16).map UInt16.toInt16).congr rfl v.toInt16_toUInt16

theorem i32_reads (v : Int32) : Reads i32.read (i32.write v) v :=
  ((u32_reads v.toUInt32).map UInt32.toInt32).congr rfl v.toInt32_toUInt32

theorem i64_reads (v : Int64) : Reads i64.read (i64.write v) v :=
  ((u64_reads v.toUInt64).map UInt64.toInt64).congr rfl v.toInt64_toUInt64

end Format

/-! ## Types -/

namespace FieldType

/-- The length of a sequence is a size, so that the eight bytes in front can hold it. Values of the
other types have no length. -/
def Addressable : (t : FieldType) → t.Value → Prop
  | bytes, v => Array.size v < 2 ^ 64
  | memory n, _ => n < 2 ^ 64
  | _, _ => True

theorem format_reads (t : FieldType) {v : t.Value} (h : t.Addressable v) :
    Reads t.format.read (t.format.write v) v := by
  cases t with
  | u8 => exact Format.u8_reads v
  | u16 => exact Format.u16_reads v
  | u32 => exact Format.u32_reads v
  | u64 | size => exact Format.u64_reads v
  | i8 => exact Format.i8_reads v
  | i16 => exact Format.i16_reads v
  | i32 => exact Format.i32_reads v
  | i64 => exact Format.i64_reads v
  | bool => exact Format.bool_reads v
  | bytes => exact Format.bytes_reads h
  | memory n => exact Format.memory_reads h v

theorem format_exact {t : FieldType} (h : t ≠ bool) : Exact t.format.read t.format.write := by
  cases t with
  | u8 => exact Format.u8_exact
  | u16 => exact Format.u16_exact
  | u32 => exact Format.u32_exact
  | u64 | size => exact Format.u64_exact
  | i8 => exact Format.i8_exact
  | i16 => exact Format.i16_exact
  | i32 => exact Format.i32_exact
  | i64 => exact Format.i64_exact
  | bool => exact absurd rfl h
  | bytes => exact Format.bytes_exact
  | memory n => exact Format.memory_exact n

theorem format_addressable {t : FieldType} {v : t.Value} (h : t.format.Yields v) :
    t.Addressable v := by
  cases t with
  | bytes => exact Format.bytes_size_lt h
  | memory n => exact Format.memory_size_lt h
  | _ => trivial

end FieldType

/-! ## Sequences -/

/-- A value and its type. -/
structure Item where
  type : FieldType
  value : type.Value

def Item.write (item : Item) : List UInt8 := item.type.format.write item.value

def Item.Addressable (item : Item) : Prop := item.type.Addressable item.value

def writeAll (items : List Item) : List UInt8 := items.flatMap Item.write

/-- Reads a value of each type in turn. -/
def readAll : List FieldType → Reader (List Item)
  | [] => return []
  | t :: types => do
    let value ← t.format.read
    return ⟨t, value⟩ :: (← readAll types)

variable {types : List FieldType} {items : List Item} {buffer rest : List UInt8}

theorem readAll_reads (h : ∀ item ∈ items, item.Addressable) :
    Reads (readAll (items.map Item.type)) (writeAll items) items := by
  induction items with
  | nil => exact Reads.pure []
  | cons item items ih =>
    obtain ⟨here, later⟩ := List.forall_mem_cons.1 h
    exact (item.type.format_reads here).bind ((ih later).map fun items => item :: items)

theorem readAll_exact (h : .bool ∉ types) : Exact (readAll types) writeAll := by
  induction types with
  | nil =>
    intro buffer items rest h
    cases h
    rfl
  | cons t types ih =>
    obtain ⟨here, later⟩ := not_or.1 (mt List.mem_cons.2 h)
    refine (FieldType.format_exact (Ne.symm here)).bind fun value buffer result rest hb => ?_
    obtain ⟨items, _, hitems, hb⟩ := of_bind_ok hb
    cases hb
    show Item.write ⟨t, value⟩ ++ writeAll items ++ rest = _
    rw [List.append_assoc, ih later hitems]
    rfl

/-- Values that were read are of the types that were asked for, and could have been written. -/
theorem of_readAll (h : readAll types buffer = .ok items rest) :
    items.map Item.type = types ∧ ∀ item ∈ items, item.Addressable := by
  induction types generalizing buffer items with
  | nil =>
    cases h
    exact ⟨rfl, fun _ h => nomatch h⟩
  | cons t types ih =>
    obtain ⟨value, mid, hvalue, h⟩ := of_bind_ok h
    obtain ⟨later, _, hlater, h⟩ := of_bind_ok h
    cases h
    obtain ⟨same, addressable⟩ := ih hlater
    refine ⟨congrArg (t :: ·) same, List.forall_mem_cons.2 ⟨?_, addressable⟩⟩
    exact FieldType.format_addressable ⟨buffer, mid, hvalue⟩

/-- What is written for values that were read, truth values or not, is read as these values again. -/
theorem readAll_again (h : readAll types buffer = .ok items rest) :
    Reads (readAll types) (writeAll items) items := by
  obtain ⟨rfl, addressable⟩ := of_readAll h
  exact readAll_reads addressable

/-- Sequences are read back as they were written, whatever follows them, and into a memory of their
size as well. Where no truth value is read, nothing else could have been written; and whatever was
read, what is written for it is read as the same values again. -/
theorem items_round_trip :
    (∀ items : List Item, (∀ item ∈ items, item.Addressable) → ∀ suffix,
      readAll (items.map Item.type) (writeAll items ++ suffix) = .ok items suffix) ∧
    (∀ (n : Nat) (v : Vector UInt8 n),
      Item.write ⟨.memory n, v⟩ = Item.write ⟨.bytes, v.toArray⟩) ∧
    (∀ types, .bool ∉ types → ∀ buffer items rest, readAll types buffer = .ok items rest →
      items.map Item.type = types ∧ writeAll items ++ rest = buffer) ∧
    ∀ types buffer items rest, readAll types buffer = .ok items rest → ∀ suffix,
      readAll types (writeAll items ++ suffix) = .ok items suffix :=
  ⟨fun _ addressable => readAll_reads addressable, fun _ _ => rfl,
    fun _ plain _ _ _ h => ⟨(of_readAll h).1, readAll_exact plain h⟩,
    fun _ _ _ _ h => readAll_again h⟩

-- A truth value is written as zero or one, so that other bytes are not given back.
example : readAll [.bool] [2] = .ok [⟨.bool, true⟩] [] ∧ writeAll [⟨.bool, true⟩] = [1] := ⟨rfl, rfl⟩

/-- Values of every type, a sequence too long for one byte to count, and bytes that were made by hand. -/
theorem mixed_items_round_trip :
    let items : List Item := [⟨.u8, (0xFF : UInt8)⟩, ⟨.u16, (0xFFFE : UInt16)⟩,
      ⟨.u32, (0xDEADBEEF : UInt32)⟩, ⟨.u64, (0xFFFFFFFFFFFFFFFF : UInt64)⟩, ⟨.i8, (-128 : Int8)⟩,
      ⟨.i16, (-2 : Int16)⟩, ⟨.i32, (-2147483648 : Int32)⟩, ⟨.i64, (-1 : Int64)⟩,
      ⟨.size, (0x8000000000000000 : UInt64)⟩, ⟨.bool, true⟩, ⟨.bytes, #[]⟩,
      ⟨.bytes, Array.replicate 300 (7 : UInt8)⟩, ⟨.memory 2, #v[4, 5]⟩]
    let found : List Item := [⟨.i16, (-2 : Int16)⟩, ⟨.bytes, #[7, 8]⟩, ⟨.memory 1, #v[6]⟩]
    let buffer : List UInt8 :=
      [0xFE, 0xFF, 2, 0, 0, 0, 0, 0, 0, 0, 7, 8, 1, 0, 0, 0, 0, 0, 0, 0, 6, 0xAA, 0xBB]
    (∀ item ∈ items, item.Addressable) ∧
      readAll (items.map Item.type) (writeAll items ++ [0xAA, 0xBB]) = .ok items [0xAA, 0xBB] ∧
      .bool ∉ [FieldType.i16, .bytes, .memory 1] ∧
      readAll [.i16, .bytes, .memory 1] buffer = .ok found [0xAA, 0xBB] ∧
      writeAll found ++ [0xAA, 0xBB] = buffer := by
  intro items found buffer
  have addressable : ∀ item ∈ items, item.Addressable := by
    simp [items, Item.Addressable, FieldType.Addressable]
  have plain : .bool ∉ [FieldType.i16, .bytes, .memory 1] := by decide
  have read : readAll [.i16, .bytes, .memory 1] buffer = .ok found [0xAA, 0xBB] := rfl
  obtain ⟨forth, -, back, -⟩ := items_round_trip
  exact ⟨addressable, forth items addressable _, plain, read, (back _ plain _ _ _ read).2⟩

end Famicom.Codec

import Famicom.Codec.Layout
import Famicom.Proofs.Coupling
import Mathlib.Algebra.Group.Nat.Defs

/-!
# Round trips

What a format wrote it reads back, whatever follows. A layout carries the fields that it names over to
another component and leaves the rest of it alone.
-/

namespace Famicom.Codec

theorem littleEndian_length (width n : Nat) : (littleEndian width n).length = width := by
  induction width generalizing n with
  | zero => rfl
  | succ width ih => exact congrArg (· + 1) (ih (n / 256))

theorem ofLittleEndian_littleEndian {width n : Nat} (h : n < 256 ^ width) :
    ofLittleEndian (littleEndian width n) = n := by
  induction width generalizing n with
  | zero =>
    rw [Nat.pow_zero] at h
    exact (Nat.lt_one_iff.1 h).symm
  | succ width ih =>
    have hq : n / 256 < 256 ^ width := by
      rw [Nat.div_lt_iff_lt_mul (by decide), ← Nat.pow_succ]
      exact h
    have hr : (UInt8.ofNat n).toNat = n % 256 := UInt8.toNat_ofNat'
    rw [littleEndian, ofLittleEndian, ih hq, hr]
    exact Nat.mod_add_div n 256

theorem ofLittleEndian_lt (bytes : List UInt8) : ofLittleEndian bytes < 256 ^ bytes.length := by
  induction bytes with
  | nil => exact Nat.one_pos
  | cons b rest ih =>
    have hb := b.toNat_lt
    rw [ofLittleEndian, List.length_cons, Nat.pow_succ]
    omega

variable {α γ σ τ : Type}

/-- A reader takes some bytes for a value and leaves what follows them. -/
def Reads (reader : EStateM DecodeError (List UInt8) α) (bytes : List UInt8) (value : α) : Prop :=
  ∀ rest, reader (bytes ++ rest) = .ok value rest

namespace Reads

variable {reader : EStateM DecodeError (List UInt8) α} {bytes more : List UInt8} {value : α}

theorem pure (value : α) :
    Reads (Pure.pure value : EStateM DecodeError (List UInt8) α) [] value :=
  fun _ => rfl

theorem bind {next : α → EStateM DecodeError (List UInt8) γ} {result : γ}
    (h : Reads reader bytes value) (hn : Reads (next value) more result) :
    Reads (reader >>= next) (bytes ++ more) result := by
  intro rest
  rw [List.append_assoc, bind_ok (h _)]
  exact hn rest

theorem map (h : Reads reader bytes value) (f : α → γ) :
    Reads (do return f (← reader)) bytes (f value) := by
  have hread : Reads (do return f (← reader)) (bytes ++ []) (f value) :=
    h.bind (Reads.pure (f value))
  rwa [List.append_nil] at hread

theorem congr {bytes' : List UInt8} {value' : α} (h : Reads reader bytes value)
    (hb : bytes = bytes') (hv : value = value') : Reads reader bytes' value' :=
  hb ▸ hv ▸ h

theorem unique {value' : α} (h : Reads reader bytes value) (h' : Reads reader bytes value') :
    value = value' := by
  have heq := (h []).symm.trans (h' [])
  injection heq

end Reads

theorem take_reads {n : Nat} (v : Vector UInt8 n) : Reads (take n) v.toList v := by
  intro rest
  have hlength : v.toList.length = n := v.length_toList
  have hle : n ≤ (v.toList ++ rest).length := by
    rw [List.length_append, hlength]
    exact Nat.le_add_right _ _
  unfold take
  rw [dif_pos hle]
  congr 1
  · apply Vector.toList_inj.1
    show ((v.toList ++ rest).take n).toArray.toList = _
    exact List.take_left' hlength
  · exact List.drop_left' hlength

theorem readNat_reads {width n : Nat} (h : n < 256 ^ width) :
    Reads (readNat width) (littleEndian width n) n := by
  have hread := (take_reads ⟨(littleEndian width n).toArray, littleEndian_length width n⟩).map
    fun v => ofLittleEndian v.toList
  exact hread.congr rfl (ofLittleEndian_littleEndian h)

namespace Format

theorem u8_reads (v : UInt8) : Reads u8.read (u8.write v) v :=
  ((readNat_reads v.toNat_lt).map UInt8.ofNat).congr rfl (UInt8.ofNat_toNat)

theorem u16_reads (v : UInt16) : Reads u16.read (u16.write v) v :=
  ((readNat_reads v.toNat_lt).map UInt16.ofNat).congr rfl (UInt16.ofNat_toNat)

theorem u32_reads (v : UInt32) : Reads u32.read (u32.write v) v :=
  ((readNat_reads v.toNat_lt).map UInt32.ofNat).congr rfl (UInt32.ofNat_toNat)

theorem u64_reads (v : UInt64) : Reads u64.read (u64.write v) v :=
  ((readNat_reads v.toNat_lt).map UInt64.ofNat).congr rfl (UInt64.ofNat_toNat)

theorem bool_reads (v : Bool) : Reads bool.read (bool.write v) v := by
  refine ((u8_reads (if v then 1 else 0)).map fun b => b != 0).congr rfl ?_
  cases v <;> rfl

theorem bytes_reads {v : Array UInt8} (h : v.size < 2 ^ 64) :
    Reads bytes.read (bytes.write v) v :=
  (readNat_reads h).bind ((take_reads ⟨v, rfl⟩).map fun v => v.toArray)

theorem memory_reads {n : Nat} (h : n < 2 ^ 64) (v : Vector UInt8 n) :
    Reads (memory n).read ((memory n).write v) v := by
  have hsize : v.toArray.size = n := v.size_toArray
  have hread : Reads (memory n).read (littleEndian 8 n ++ v.toList) v := by
    refine (readNat_reads h).bind ?_
    rw [if_pos rfl]
    exact take_reads v
  refine hread.congr ?_ rfl
  show _ = littleEndian 8 v.toArray.size ++ _
  rw [hsize]
  rfl

end Format

/-! ## Fields and layouts -/

/-- A field of `s` is read back as the change `change`. -/
def Field.Carries (s : σ) (field : Field σ) (change : σ → σ) : Prop :=
  Reads field.read (field.write s) change

theorem Field.of_carries {format : Format α} {get : σ → α} {s : σ}
    (h : Reads format.read (format.write (get s)) (get s)) (set : α → σ → σ) :
    Field.Carries s (.of format get set) (set (get s)) :=
  h.map set

theorem Layout.encode_append (layout other : Layout σ) (s : σ) :
    (layout ++ other).encode s = layout.encode s ++ other.encode s :=
  List.flatMap_append

theorem Layout.encode_within {get? : τ → Option σ} {modify : (σ → σ) → τ → τ} {t : τ} {s : σ}
    (h : get? t = some s) (layout : Layout σ) :
    (layout.within get? modify).encode t = layout.encode s := by
  induction layout with
  | nil => rfl
  | cons field layout ih =>
    show (get? t).elim [] field.write ++ (Layout.within get? modify layout).encode t = _
    rw [h, ih]
    rfl

/-- The fields of a layout, one change after the other. -/
inductive Layout.Carries (s : σ) : Layout σ → (σ → σ) → Prop
  | nil : Carries s [] id
  | cons {field : Field σ} {layout : Layout σ} {first rest : σ → σ} : field.Carries s first →
      Carries s layout rest → Carries s (field :: layout) (rest ∘ first)

namespace Layout.Carries

variable {s : σ} {layout other : Layout σ} {change change' : σ → σ}

theorem load (h : layout.Carries s change) (target : σ) (rest : List UInt8) :
    layout.load (layout.encode s ++ rest) target = .ok rest (change target) := by
  induction h generalizing target with
  | nil => rfl
  | @cons field layout first _ hf _ ih =>
    have hread : field.read (field.write s ++ (layout.encode s ++ rest)) = _ :=
      hf (layout.encode s ++ rest)
    have hsplit : Layout.encode (field :: layout) s ++ rest =
        field.write s ++ (layout.encode s ++ rest) := by
      rw [Layout.encode, List.flatMap_cons, List.append_assoc]
      rfl
    rw [hsplit]
    unfold Layout.load
    simp only [hread]
    exact ih _

theorem append (h : layout.Carries s change) (ho : other.Carries s change') :
    (layout ++ other).Carries s (change' ∘ change) := by
  induction h with
  | nil => exact ho
  | @cons field layout first rest hf _ ih =>
    show Carries s (field :: (layout ++ other)) ((change' ∘ rest) ∘ first)
    exact .cons hf ih

/-- A layout of a part carries the part. -/
theorem within {get? : τ → Option σ} {modify : (σ → σ) → τ → τ} {t : τ}
    (h : layout.Carries s change) (hs : get? t = some s)
    (hid : modify id = id) (hcomp : ∀ f g, modify (g ∘ f) = modify g ∘ modify f) :
    (layout.within get? modify).Carries t (modify change) := by
  induction h with
  | nil =>
    rw [hid]
    exact .nil
  | @cons field layout first rest hf _ ih =>
    rw [hcomp]
    refine .cons ?_ ih
    have hw : (Field.within get? modify field).write t = field.write s := by
      simp only [Field.within, hs, Option.elim_some]
    unfold Field.Carries
    rw [hw]
    exact Reads.map hf modify

theorem unique (h : layout.Carries s change) (h' : layout.Carries s change') :
    change = change' := by
  induction h generalizing change' with
  | nil =>
    cases h'
    rfl
  | cons hf _ ih =>
    cases h' with
    | cons hf' hl' => rw [ih hl', Reads.unique hf hf']

end Layout.Carries

/-- Adoption behind one more field: the field comes first. -/
def Layout.behind (first : σ → σ) (adopt : Nat → σ → σ) : Nat → σ → σ
  | 0 => id
  | n + 1 => adopt n ∘ first

/-- However many of its first fields a layout carries, `adopt` is what they bring over. -/
def Layout.Adopts (s : σ) (layout : Layout σ) (adopt : Nat → σ → σ) : Prop :=
  ∀ n, Layout.Carries s (layout.take n) (adopt n)

namespace Layout.Adopts

variable {s : σ} {layout other : Layout σ} {adopt adopt' : Nat → σ → σ}

theorem nil : Adopts s [] fun _ => id := fun n => by
  rw [List.take_nil]
  exact .nil

theorem cons {field : Field σ} {first : σ → σ} (hf : field.Carries s first)
    (h : layout.Adopts s adopt) : Adopts s (field :: layout) (behind first adopt)
  | 0 => .nil
  | n + 1 => show Carries s (field :: layout.take n) (adopt n ∘ first) from .cons hf (h n)

theorem congr (h : layout.Adopts s adopt) (ha : ∀ n t, adopt n t = adopt' n t) :
    layout.Adopts s adopt' :=
  fun n => (funext (ha n) : adopt n = adopt' n) ▸ h n

theorem all (h : layout.Adopts s adopt) : layout.Carries s (adopt layout.length) := by
  have hall := h layout.length
  rwa [List.take_length] at hall

theorem append (h : layout.Adopts s adopt) (ho : other.Adopts s adopt') :
    Adopts s (layout ++ other) fun n => adopt' (n - layout.length) ∘ adopt n := fun n => by
  rw [List.take_append]
  exact (h n).append (ho (n - layout.length))

theorem within {get? : τ → Option σ} {modify : (σ → σ) → τ → τ} {t : τ}
    (h : layout.Adopts s adopt) (hs : get? t = some s)
    (hid : modify id = id) (hcomp : ∀ f g, modify (g ∘ f) = modify g ∘ modify f) :
    (layout.within get? modify).Adopts t fun n => modify (adopt n) := fun n => by
  have hw := (h n).within hs hid hcomp
  rwa [Layout.within, List.map_take] at hw

end Layout.Adopts

end Famicom.Codec

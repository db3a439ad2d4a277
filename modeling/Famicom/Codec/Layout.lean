import Famicom.Codec.Format

/-!
# Layouts of components

A component is laid out as a list of fields. Loading assigns field by field: a field that cannot be
read leaves itself and all later ones as they were.
-/

namespace Famicom.Codec

/-- One field of a component: its bytes, and the change that reading it makes. -/
structure Field (σ : Type) where
  write : σ → List UInt8
  read : Reader (σ → σ)

variable {σ τ α : Type}

def Field.of (format : Format α) (get : σ → α) (set : α → σ → σ) : Field σ where
  write s := format.write (get s)
  read := return set (← format.read)

/-- A field of a part is a field of the whole. A whole without that part writes nothing. -/
def Field.within (get? : τ → Option σ) (modify : (σ → σ) → τ → τ) (field : Field σ) : Field τ where
  write t := (get? t).elim [] field.write
  read := return modify (← field.read)

abbrev Layout (σ : Type) := List (Field σ)

def Layout.within (get? : τ → Option σ) (modify : (σ → σ) → τ → τ) (layout : Layout σ) :
    Layout τ :=
  layout.map (Field.within get? modify)

def Layout.encode (layout : Layout σ) (s : σ) : List UInt8 :=
  layout.flatMap fun field => field.write s

/-- Loads a component from the front of a buffer and answers what follows it. -/
def Layout.load : Layout σ → List UInt8 → EStateM DecodeError σ (List UInt8)
  | [], buffer => pure buffer
  | field :: rest, buffer => fun s =>
    match field.read buffer with
    | .ok change buffer => load rest buffer (change s)
    | .error cause _ => .error cause s

end Famicom.Codec

import Micronuts.Lib.Decoder

/-!
# Codecs

A writer and a reader that takes back what was written, whatever follows it. Codecs are put side by side, repeated behind
a count, and carried over to another type that can be read back from the first.
-/

namespace Decoder
variable {τ α : Type}

def items (d : Decoder τ α) : Nat → Decoder τ (List α)
  | 0 => pure []
  | n + 1 => do
    let a ← d
    let l ← items d n
    pure (a :: l)

theorem Reads.items {d : Decoder τ α} {put : α → List τ} {l : List α} (h : ∀ a ∈ l, Reads d (put a) a) :
    Reads (items d l.length) (l.flatMap put) l := by
  induction l with
  | nil => exact Reads.pure _
  | cons a l ih =>
    rw [List.forall_mem_cons] at h
    exact h.1.bind ((ih h.2).bind_pure (Reads.pure _))

end Decoder

structure Codec (τ α : Type) where
  encode : α → List τ
  decode : Decoder τ α
  reads : ∀ a, Decoder.Reads decode (encode a) a

namespace Codec
variable {τ α β : Type}
open Decoder

def pair (c : Codec τ α) (d : Codec τ β) : Codec τ (α × β) where
  encode p := c.encode p.1 ++ d.encode p.2
  decode := do
    let a ← c.decode
    let b ← d.decode
    pure (a, b)
  reads p := (c.reads p.1).bind ((d.reads p.2).bind_pure (Reads.pure _))

/-- The values of another type, as far as they can be read back. -/
def via (c : Codec τ α) (f : α → Option β) (g : β → α) (h : ∀ b, f (g b) = some b) : Codec τ β where
  encode b := c.encode (g b)
  decode := do
    let a ← c.decode
    (f a : Option β)
  reads b := (c.reads (g b)).bind_pure (Reads.lift (h b))

/-- A list behind its length. -/
def listOf (count : Codec τ Nat) (c : Codec τ α) : Codec τ (List α) where
  encode l := count.encode l.length ++ l.flatMap c.encode
  decode := do
    let n ← count.decode
    items c.decode n
  reads l := (count.reads l.length).bind (Reads.items fun a _ => c.reads a)

def iso (c : Codec τ α) (f : α → β) (g : β → α) (h : ∀ b, f (g b) = b) : Codec τ β :=
  c.via (fun a => some (f a)) g fun b => congrArg some (h b)

end Codec

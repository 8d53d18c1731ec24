import Mathlib.Data.List.Basic

/-!
A serialisation format for one type, with the laws a reader of stored bytes relies
on: decoding what was encoded gives the value back, and no value is written as
nothing.
-/

structure Codec (α : Type) where
  encode : α → List UInt8
  decode : List UInt8 → Option α
  decode_encode : ∀ a, decode (encode a) = some a
  encode_ne_nil : ∀ a, encode a ≠ []

theorem Codec.encode_injective {α : Type} (c : Codec α) : Function.Injective c.encode := by
  intro a b h
  have decoded := congrArg c.decode h
  rw [c.decode_encode, c.decode_encode] at decoded
  exact Option.some.inj decoded

-- The recursions over a tuple (tuple_meta.hpp): each of them goes from index to
-- index, and is the traversal of the elements from the first to the last. The
-- elements of a tuple are a list here, and `func` has its effects in a monad.
import Mathlib.Data.List.Basic

namespace ltl.tuple_meta

universe u v

variable {α β : Type u} {m : Type u → Type v} [Monad m]

/-- The constant `I` of both recursions: the index, clamped to the last one. -/
def I (Idx TupleSize : Nat) : Nat := if Idx < TupleSize then Idx else TupleSize - 1

theorem I_eq {Idx TupleSize : Nat} (h : Idx < TupleSize) : I Idx TupleSize = Idx := by
  simp [I, h]

theorem I_lt {Idx TupleSize : Nat} (h : Idx < TupleSize) : I Idx TupleSize < TupleSize := by
  rw [I_eq h]
  exact h

/-- `tuple_transform::apply`: `*out++ = func(std::get<I>(x))`. -/
def tuple_transform (x : List α) (func : α → m β) (out : List β) (Idx : Nat) : m (List β) :=
  if h : Idx < x.length then do
    let b ← func (x.get ⟨I Idx x.length, I_lt h⟩)
    tuple_transform x func (out ++ [b]) (I Idx x.length + 1)
  else pure out
termination_by x.length - Idx
decreasing_by
  rw [I_eq h]
  omega

/-- `tuple_map_values_impl::apply`: `std::get<I>(out) = MetaFunc(std::get<I>(in))`. -/
def tuple_map_values_impl (x : List α) (func : α → m β) (out : List β) (Idx : Nat) :
    m (List β) :=
  if h : Idx < x.length then do
    let b ← func (x.get ⟨I Idx x.length, I_lt h⟩)
    tuple_map_values_impl x func (out.set (I Idx x.length) b) (I Idx x.length + 1)
  else pure out
termination_by x.length - Idx
decreasing_by
  rw [I_eq h]
  omega

/-- `tuple_map`, which starts with a tuple of default values. -/
def tuple_map [Inhabited β] (x : List α) (func : α → m β) : m (List β) :=
  tuple_map_values_impl x func (List.replicate x.length default) 0

variable [LawfulMonad m]

theorem tuple_transform_from (x : List α) (func : α → m β) (out : List β) (Idx : Nat) :
    tuple_transform x func out Idx = (fun bs => out ++ bs) <$> (x.drop Idx).mapM func := by
  induction hn : x.length - Idx generalizing out Idx with
  | zero =>
    have hle : x.length ≤ Idx := by omega
    unfold tuple_transform
    simp [Nat.not_lt_of_le hle, List.drop_eq_nil_of_le hle]
  | succ n ih =>
    have hlt : Idx < x.length := by omega
    unfold tuple_transform
    rw [dif_pos hlt, List.drop_eq_getElem_cons hlt, List.mapM_cons]
    simp only [I_eq hlt, List.get_eq_getElem]
    have hrest := fun b => ih (out ++ [b]) (Idx + 1) (by omega)
    simp only [hrest, ← bind_pure_comp, bind_assoc, pure_bind, List.append_assoc,
      List.singleton_append]

theorem tuple_map_values_from (x : List α) (func : α → m β) (out : List β) (Idx : Nat)
    (hout : out.length = x.length) : tuple_map_values_impl x func out Idx =
      (fun bs => out.take Idx ++ bs) <$> (x.drop Idx).mapM func := by
  induction hn : x.length - Idx generalizing out Idx with
  | zero =>
    have hle : x.length ≤ Idx := by omega
    unfold tuple_map_values_impl
    simp [Nat.not_lt_of_le hle, List.drop_eq_nil_of_le hle,
      List.take_of_length_le (hout ▸ hle : out.length ≤ Idx)]
  | succ n ih =>
    have hlt : Idx < x.length := by omega
    unfold tuple_map_values_impl
    rw [dif_pos hlt, List.drop_eq_getElem_cons hlt, List.mapM_cons]
    simp only [I_eq hlt, List.get_eq_getElem]
    have hrest := fun b => ih (out.set Idx b) (Idx + 1) (by simpa using hout) (by omega)
    have htake : ∀ b, (out.set Idx b).take (Idx + 1) = out.take Idx ++ [b] := by
      intro b
      have hlt' : Idx < (out.set Idx b).length := by simpa [hout] using hlt
      rw [List.take_succ_eq_append_getElem hlt', List.getElem_set_self, List.take_set_of_le]
      exact Nat.le_refl Idx
    simp only [hrest, htake, ← bind_pure_comp, bind_assoc, pure_bind, List.append_assoc,
      List.singleton_append]

/-- `tuple_transform` visits each element once, from the first to the last. -/
theorem tuple_transform_eq_mapM (x : List α) (func : α → m β) :
    tuple_transform x func [] 0 = x.mapM func := by
  rw [tuple_transform_from]
  simp

/-- So does `tuple_map`. -/
theorem tuple_map_eq_mapM [Inhabited β] (x : List α) (func : α → m β) :
    tuple_map x func = x.mapM func := by
  unfold tuple_map
  rw [tuple_map_values_from x func _ 0 (by simp)]
  simp

end ltl.tuple_meta

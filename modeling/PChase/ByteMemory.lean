import Mathlib.Data.List.Basic
import Mathlib.Tactic.IntervalCases

/-!
# Memory of bytes

Memory maps every 64-bit address to a byte, and words of 64 bits are read and written
with the least significant byte first. Two addresses are apart when the words at them
share no byte, which for numbers that do not wrap is a distance of eight.
-/

namespace PChase.ByteMemory

set_option autoImplicit false

abbrev Word := BitVec 64

abbrev Memory := Word → BitVec 8

def load (m : Memory) (a : Word) : Word :=
  m (a + 7) ++ m (a + 6) ++ m (a + 5) ++ m (a + 4) ++ m (a + 3) ++ m (a + 2) ++ m (a + 1) ++ m a

def store (m : Memory) (a v : Word) : Memory := fun x =>
  if (x - a).toNat < 8 then v.extractLsb' (8 * (x - a).toNat) 8 else m x

def Apart (a b : Word) : Prop := 8 ≤ (b - a).toNat ∧ 8 ≤ (a - b).toNat

theorem Apart.symm {a b : Word} (h : Apart a b) : Apart b a := ⟨h.2, h.1⟩

theorem store_of_far {m : Memory} {a v x : Word} (h : 8 ≤ (x - a).toNat) :
    store m a v x = m x := if_neg (Nat.not_lt.mpr h)

theorem store_byte (m : Memory) (a v : Word) {k : Nat} (hk : k < 8) :
    store m a v (a + BitVec.ofNat 64 k) = v.extractLsb' (8 * k) 8 := by
  have hdiff : (a + BitVec.ofNat 64 k - a).toNat = k := by
    rw [BitVec.add_comm, BitVec.add_sub_cancel, BitVec.toNat_ofNat]
    omega
  simp only [store, hdiff, hk, if_true]

theorem load_congr {m m' : Memory} {a : Word}
    (h : ∀ k < 8, m (a + BitVec.ofNat 64 k) = m' (a + BitVec.ofNat 64 k)) :
    load m a = load m' a := by
  have h0 := h 0 (by omega)
  rw [BitVec.add_zero] at h0
  have h1 : m (a + 1) = m' (a + 1) := h 1 (by omega)
  have h2 : m (a + 2) = m' (a + 2) := h 2 (by omega)
  have h3 : m (a + 3) = m' (a + 3) := h 3 (by omega)
  have h4 : m (a + 4) = m' (a + 4) := h 4 (by omega)
  have h5 : m (a + 5) = m' (a + 5) := h 5 (by omega)
  have h6 : m (a + 6) = m' (a + 6) := h 6 (by omega)
  have h7 : m (a + 7) = m' (a + 7) := h 7 (by omega)
  simp only [load, h0, h1, h2, h3, h4, h5, h6, h7]

theorem load_store_self (m : Memory) (a v : Word) : load (store m a v) a = v := by
  have h0 := store_byte m a v (show 0 < 8 by omega)
  rw [BitVec.add_zero] at h0
  have h1 : store m a v (a + 1) = _ := store_byte m a v (show 1 < 8 by omega)
  have h2 : store m a v (a + 2) = _ := store_byte m a v (show 2 < 8 by omega)
  have h3 : store m a v (a + 3) = _ := store_byte m a v (show 3 < 8 by omega)
  have h4 : store m a v (a + 4) = _ := store_byte m a v (show 4 < 8 by omega)
  have h5 : store m a v (a + 5) = _ := store_byte m a v (show 5 < 8 by omega)
  have h6 : store m a v (a + 6) = _ := store_byte m a v (show 6 < 8 by omega)
  have h7 : store m a v (a + 7) = _ := store_byte m a v (show 7 < 8 by omega)
  simp only [load, h0, h1, h2, h3, h4, h5, h6, h7]
  ext i hi
  simp only [BitVec.getElem_append, BitVec.getElem_extractLsb']
  rw [← BitVec.getLsbD_eq_getElem]
  split_ifs <;> exact congrArg v.getLsbD (by omega)

theorem load_store_of_apart (m : Memory) {a b : Word} (v : Word) (h : Apart a b) :
    load (store m a v) b = load m b := by
  apply load_congr
  intro k hk
  apply store_of_far
  obtain ⟨hab, hba⟩ := h
  rw [BitVec.toNat_sub] at hab hba ⊢
  rw [BitVec.toNat_add, BitVec.toNat_ofNat]
  omega

def SameBut (S : Word → Prop) (m m' : Memory) : Prop := ∀ x, ¬ S x → m' x = m x

namespace SameBut
variable {S T : Word → Prop} {m m' m'' : Memory}

theorem refl (S : Word → Prop) (m : Memory) : SameBut S m m := fun _ _ => rfl

theorem trans (h : SameBut S m m') (h' : SameBut S m' m'') : SameBut S m m'' :=
  fun x hx => (h' x hx).trans (h x hx)

theorem mono (h : SameBut S m m') (hST : ∀ x, S x → T x) : SameBut T m m' :=
  fun x hx => h x fun hS => hx (hST x hS)

theorem load_eq (h : SameBut S m m') {a : Word} (ha : ∀ k < 8, ¬ S (a + BitVec.ofNat 64 k)) :
    load m' a = load m a :=
  load_congr fun k hk => h _ (ha k hk)

end SameBut

section Numbers
variable {x y : Int}

theorem toNat_ofInt (h0 : 0 ≤ x) (h1 : x < 18446744073709551616) :
    ((BitVec.ofInt 64 x).toNat : Int) = x := by
  rw [BitVec.toNat_ofInt]
  omega

theorem apart_ofInt (hx0 : 0 ≤ x) (hx1 : x + 8 ≤ 18446744073709551616) (hy0 : 0 ≤ y)
    (hy1 : y + 8 ≤ 18446744073709551616) (h : x + 8 ≤ y ∨ y + 8 ≤ x) :
    Apart (BitVec.ofInt 64 x) (BitVec.ofInt 64 y) := by
  have hx := toNat_ofInt hx0 (by omega)
  have hy := toNat_ofInt hy0 (by omega)
  unfold Apart
  rw [BitVec.toNat_sub, BitVec.toNat_sub]
  omega

theorem toNat_word_byte (h0 : 0 ≤ x) (h1 : x + 8 ≤ 18446744073709551616) {k : Nat} (hk : k < 8) :
    ((BitVec.ofInt 64 x + BitVec.ofNat 64 k).toNat : Int) = x + k := by
  have hx := toNat_ofInt h0 (by omega)
  rw [BitVec.toNat_add, BitVec.toNat_ofNat]
  omega

theorem byte_of_near (h0 : 0 ≤ x) (h1 : x + 8 ≤ 18446744073709551616) {w : Word}
    (h : (w - BitVec.ofInt 64 x).toNat < 8) : x ≤ w.toNat ∧ (w.toNat : Int) < x + 8 := by
  have hx := toNat_ofInt h0 (by omega)
  rw [BitVec.toNat_sub] at h
  omega

theorem store_sameBut (m : Memory) (v : Word) (h0 : 0 ≤ x) (h1 : x + 8 ≤ 18446744073709551616) :
    SameBut (fun w => x ≤ w.toNat ∧ (w.toNat : Int) < x + 8) m (store m (BitVec.ofInt 64 x) v) := by
  intro w hw
  apply store_of_far
  by_contra hnear
  exact hw (byte_of_near h0 h1 (by omega))

end Numbers

end PChase.ByteMemory

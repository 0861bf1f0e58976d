import Levos.Framework.ByteMemory
import Mathlib.Data.List.Induction

namespace Levos.Framework

/-- The memory behind addresses of 32 bits, which run on at 0 behind the last one. -/
abbrev AddressSpace := BitVec 32 → BitVec 8

namespace AddressSpace

def load (m : AddressSpace) (a : BitVec 32) : BitVec 32 := m (a + 3) ++ m (a + 2) ++ m (a + 1) ++ m a

def store (m : AddressSpace) (a w : BitVec 32) : AddressSpace :=
  fun x => if (x - a).toNat < 4 then Memory.byteOf w (x - a).toNat else m x

/-- Nothing differs but the `n` bytes from `a` on. -/
def Only (a : BitVec 32) (n : Nat) (m m' : AddressSpace) : Prop :=
  ∀ x, n ≤ (x - a).toNat → m' x = m x

/-- The words of `ws` lie in memory from `a` upwards. -/
def Holds (m : AddressSpace) : BitVec 32 → List (BitVec 32) → Prop
  | _, [] => True
  | a, w :: ws => m.load a = w ∧ Holds m (a + 4) ws

/-- A push on a stack that grows down. -/
def push (s : BitVec 32 × AddressSpace) (w : BitVec 32) : BitVec 32 × AddressSpace :=
  (s.1 - 4, s.2.store (s.1 - 4) w)

variable {m m' m'' : AddressSpace} {a b w : BitVec 32} {n k : Nat} {ws : List (BitVec 32)}

@[simp] theorem load_store (m : AddressSpace) (a w : BitVec 32) : (m.store a w).load a = w := by
  have at_ (i : BitVec 32) (hi : i.toNat < 4) : m.store a w (a + i) = Memory.byteOf w i.toNat := by
    have : a + i - a = i := by rw [BitVec.add_comm, BitVec.add_sub_cancel]
    rw [store, this, if_pos hi]
  have h0 : m.store a w a = Memory.byteOf w 0 := by
    rw [store, BitVec.sub_self]
    rfl
  rw [load, at_ 3 (by decide), at_ 2 (by decide), at_ 1 (by decide), h0]
  exact Memory.append_byteOf w

theorem Only.refl : Only a n m m := fun _ _ => rfl

theorem Only.trans (h : Only a n m m') (k : Only a n m' m'') : Only a n m m'' :=
  fun x hx => (k x hx).trans (h x hx)

theorem only_store (m : AddressSpace) (a w : BitVec 32) : Only a 4 m (m.store a w) :=
  fun _ hx => if_neg (by omega)

/-- A range of bytes is part of a larger one. -/
theorem Only.mono {d : Nat} (h : Only b k m m') (hb : b = a + BitVec.ofNat 32 d) (hd : d + k ≤ n)
    (hn : n < 2 ^ 32) : Only a n m m' := by
  subst hb
  intro x hx
  refine h x ?_
  bv_omega

theorem Holds.congr (h : Holds m a ws) (hm : ∀ x, (x - a).toNat < 4 * ws.length → m' x = m x) :
    Holds m' a ws := by
  induction ws generalizing a with
  | nil => trivial
  | cons w ws ih =>
    rw [List.length_cons] at hm
    have at_ (i : BitVec 32) (hi : i.toNat < 4) : m' (a + i) = m (a + i) := by
      refine hm (a + i) ?_
      rw [BitVec.add_comm, BitVec.add_sub_cancel]
      omega
    have h0 : m' a = m a := hm a (by rw [BitVec.sub_self]; simp)
    refine ⟨?_, ih h.2 fun x hx => hm x ?_⟩
    · rw [load, at_ 3 (by decide), at_ 2 (by decide), at_ 1 (by decide), h0]
      exact h.1
    · bv_omega

/-- Words outside the range that differs are still there. -/
theorem Holds.only (h : Holds m a ws) (ho : Only b n m m')
    (hx : ∀ x, (x - a).toNat < 4 * ws.length → n ≤ (x - b).toNat) : Holds m' a ws :=
  h.congr fun x hlt => ho x (hx x hlt)

theorem Holds.push (h : Holds m a ws) (hlen : 4 * ws.length + 4 ≤ 2 ^ 32) :
    Holds (m.store (a - 4) w) (a - 4) (w :: ws) := by
  refine ⟨load_store .., ?_⟩
  rw [BitVec.sub_add_cancel]
  refine h.only (only_store _ _ _) fun x hx => ?_
  bv_omega

/-- A sequence of pushes leaves its words on the stack, the last one on top, and writes nothing
else. -/
theorem foldl_push (s : BitVec 32 × AddressSpace) (ws : List (BitVec 32)) {n : Nat}
    (hn : 4 * ws.length = n) (hlt : n < 2 ^ 32) :
    ∃ m, ws.foldl push s = (s.1 - BitVec.ofNat 32 n, m) ∧
      Holds m (s.1 - BitVec.ofNat 32 n) ws.reverse ∧ Only (s.1 - BitVec.ofNat 32 n) n s.2 m := by
  induction ws using List.reverseRecOn generalizing n with
  | nil =>
    obtain rfl : n = 0 := hn.symm
    exact ⟨s.2, by simp, trivial, .refl⟩
  | append_singleton ws w ih =>
    rw [List.length_append, List.length_singleton] at hn
    obtain ⟨m, h1, h2, h3⟩ := ih (n := n - 4) (by omega) (by omega)
    have haddr : s.1 - BitVec.ofNat 32 (n - 4) - 4 = s.1 - BitVec.ofNat 32 n := by bv_omega
    have hfold : (ws ++ [w]).foldl push s =
        (s.1 - BitVec.ofNat 32 n, m.store (s.1 - BitVec.ofNat 32 n) w) := by
      rw [List.foldl_append, h1, List.foldl_cons, List.foldl_nil, push, haddr]
    refine ⟨_, hfold, ?_, ?_⟩
    · have hpush := h2.push (w := w) (by rw [List.length_reverse]; omega)
      rwa [haddr, ← List.reverse_concat] at hpush
    · have hstore := only_store m (s.1 - BitVec.ofNat 32 n) w
      have hlow : s.1 - BitVec.ofNat 32 n = s.1 - BitVec.ofNat 32 n + BitVec.ofNat 32 0 := by
        bv_omega
      have hhigh : s.1 - BitVec.ofNat 32 (n - 4) =
          s.1 - BitVec.ofNat 32 n + BitVec.ofNat 32 4 := by bv_omega
      exact (h3.mono hhigh (by omega) hlt).trans (hstore.mono hlow (by omega) hlt)

end AddressSpace

end Levos.Framework

import Levos.Framework.Run

namespace Levos.Framework

variable {σ ε α : Type*} {s t : σ} {e : ε} {es : List ε}

/-- A queue: what goes in with a step comes out behind what was there. -/
structure Fifo (σ ε α : Type*) where
  content : σ → List α
  put : ε → List α
  take : ε → List α

namespace Fifo

variable (q : Fifo σ ε α)

/-- A step keeps the queue in order. -/
def Keeps (s : σ) (e : ε) (t : σ) : Prop := q.content s ++ q.put e = q.take e ++ q.content t

/-- What came out so far, and then what is still there, is what went in. -/
def InOrder (s : σ) (es : List ε) (t : σ) : Prop :=
  q.content s ++ es.flatMap q.put = es.flatMap q.take ++ q.content t

variable {q}

theorem InOrder.nil (s : σ) : q.InOrder s [] s := by simp [InOrder]

/-- Once a queue is in order, a step leaves it so exactly when it keeps it. -/
theorem InOrder.snoc_iff {u : σ} (h : q.InOrder s es t) :
    q.InOrder s (es ++ [e]) u ↔ q.Keeps t e u := by
  have hleft : q.content s ++ (es ++ [e]).flatMap q.put =
      es.flatMap q.take ++ (q.content t ++ q.put e) := by
    rw [List.flatMap_append, ← List.append_assoc, h]
    simp
  have hright : (es ++ [e]).flatMap q.take ++ q.content u =
      es.flatMap q.take ++ (q.take e ++ q.content u) := by
    simp
  rw [InOrder, Keeps, hleft, hright]
  exact List.append_right_inj _

end Fifo

end Levos.Framework

import Treewalk.Evaluation

/-!
# Entering blocks and calls

**The body of a block and the body of a function run in a new frame each.**  Making the frame is one
step here: that of a block has nothing in it yet, that of a call has the arguments.
-/

namespace Treewalk

namespace Run

/-- The frame in which the body of a block runs. -/
def blockFrame : Run FrameId := do
  child (← currentFrame)

theorem blockFrame_bind {α : Type} (rest : FrameId → Run α) :
    (currentFrame >>= fun frame => child frame >>= rest) = blockFrame >>= rest := by
  rw [blockFrame, bind_assoc]

/-- The frame in which the body of a function runs. -/
def callFrame (f : Closure) (args : List Value) : Run FrameId := do
  let frame ← child f.frame
  bindParams frame f.declaration.params args
  return frame

theorem callFrame_bind {α : Type} (f : Closure) (args : List Value) (rest : FrameId → Run α) :
    (child f.frame >>= fun frame =>
      bindParams frame f.declaration.params args >>= fun _ => rest frame)
        = callFrame f args >>= rest := by
  rw [callFrame]
  simp only [bind_assoc, pure_bind]

end Run

end Treewalk

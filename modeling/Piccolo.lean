import Piccolo.Vec
import Piccolo.Value
import Piccolo.Stash
import Piccolo.Thread.State
import Piccolo.Thread.LuaFrame
import Piccolo.Thread.Upvalues
import Piccolo.Thread.Registers
import Piccolo.Thread.Thread
import Piccolo.Thread.Return
import Piccolo.Thread.Shape
import Piccolo.Thread.ShapeLua
import Piccolo.Thread.FrameSpec
import Piccolo.Thread.OpenLists
import Piccolo.Executor.Step
import Piccolo.Executor.ThreadStack
import Piccolo.Executor.Shape
import Piccolo.Executor.System
import Piccolo.Executor.Suspend
import Piccolo.Executor.Changes
import Piccolo.Executor.LooseShape
import Piccolo.Executor.OpenLists
import Piccolo.Executor.Cells

import Symsan.Label
import Symsan.Ast
import Symsan.Lift
import Symsan.Simplify
import Symsan.Normal
import Symsan.Task
import Symsan.Trace
import Symsan.Driver
import Symsan.NormalProperties
import Symsan.LiftProperties
import Symsan.ArgMapProperties
import Symsan.TaskProperties
import Symsan.TraceProperties
import Symsan.DriverProperties
import Symsan.FinalizeProperties
import Symsan.ShapesProperties
import Symsan.RootsProperties
import Symsan.QueueProperties
import Symsan.PipelineProperties

import ValyriaApp.State.Summaries

/-! # History

The tasks of earlier sessions reach the store through summaries only. A list is
merged again whenever the host asks for it, and what a later list says of a task
the stream has not touched replaces what an earlier one said.
-/

namespace ValyriaApp

variable {tasks : Record TaskProjection} {su : TaskSummaryLike} {sus : List TaskSummaryLike}
  {s : StoreState} {id : String} {prev p : TaskProjection}

end ValyriaApp

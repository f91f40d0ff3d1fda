import Mathlib.Logic.Relation
import UndoCxx.Cursor
import UndoCxx.Serial
import UndoCxx.View

/-! What holds of a manager whatever code calls it, and calls it back. -/
namespace UndoCxx

open Cxx

variable {A μ α : Type}

namespace History

variable {h h' : History μ}

end History

end UndoCxx

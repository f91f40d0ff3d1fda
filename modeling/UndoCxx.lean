import UndoCxx.Lockstep
import UndoCxx.Cursor
import UndoCxx.Serial
import UndoCxx.Limit
import UndoCxx.Failure
import UndoCxx.Restore
import UndoCxx.Erase
import UndoCxx.Guard
import UndoCxx.Shift
import UndoCxx.Composite
import UndoCxx.Nested
import UndoCxx.Factory
import UndoCxx.Reentrant
import UndoCxx.Unwind
import UndoCxx.Outage
import UndoCxx.Journal
import UndoCxx.Contract
import UndoCxx.Defined
import UndoCxx.Timeline
import UndoCxx.WordProcessor

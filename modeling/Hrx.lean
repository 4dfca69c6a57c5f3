import Hrx.Frontier.Equiv.Query
import Hrx.Tlsf.Equiv.Calls
import Hrx.Tracker.Equiv.Session
import Hrx.Tracker.Equiv.Join
import Hrx.Semaphore.Equiv.PendingIndex
import Hrx.Semaphore.Equiv.Tainting
import Hrx.Semaphore.Equiv.Delivery
import Hrx.Ring.Equiv.Spsc
import Hrx.Ring.Equiv.Mpsc
import Hrx.Cfg.Equiv.RegionExits
import Hrx.Cfg.Equiv.Dataflow
import Hrx.LoopDomain.Equiv.Recurrence
import Hrx.Tokenizer.ByteFallback.Equiv.Decode
import Hrx.Liveness.Equiv.Dataflow
import Hrx.Tokenizer.WordPiece.Equiv.Encode
import Hrx.Facts.Equiv.Bitwise
import Hrx.Facts.Equiv.Preimage
import Hrx.Facts.Equiv.Predicate
import Hrx.Bytecode.Equiv.Varint
import Hrx.LoopDomain.Equiv.ShiftToZero
import Hrx.Tokenizer.Split.Equiv.Inverted

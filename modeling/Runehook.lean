import Runehook.Lib.LruCache
import Runehook.Database
import Runehook.InputBalances
import Runehook.Service
import Runehook.MintCap
import Runehook.Resume
import Runehook.MempoolThreads
import Runehook.MempoolScan
import Runehook.Registered
import Runehook.Numbering
import Runehook.Eviction
import Runehook.Circulation
import Runehook.MempoolAgreement
import Runehook.PgNumeric
import Runehook.Losses
import Runehook.EdictOrders
import Runehook.Interference
import Runehook.Cenotaphs
import Runehook.Statements
import Runehook.OutputAmounts
import Runehook.BoundedMoves
import Runehook.EventIndexes
import Runehook.OperationCounts
import Runehook.NoPanics
import Runehook.Readings
import Runehook.SideBySide
import Runehook.ReorgEquivalence
import Runehook.Deciphered
import Runehook.SortedEdicts
import Runehook.ReservedNames
import Runehook.Refinement
import Runehook.Progress
import Runehook.UnlockSchedule

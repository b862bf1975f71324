import HighloadCup.Lib.Transition
import HighloadCup.Lib.Liveness
import HighloadCup.Lib.Linearizability
import HighloadCup.Lib.Postcondition
import HighloadCup.Lib.Heap
import HighloadCup.Lib.DenseHashMap
import HighloadCup.Lib.SetIndex
import HighloadCup.Lib.OrderedMap
import HighloadCup.Lib.Bytes
import HighloadCup.Lib.Numerals
import HighloadCup.Lib.Utf8
import HighloadCup.Lib.Json.Text
import HighloadCup.Lib.Json.Tokens
import HighloadCup.Lib.Json.Layout
import HighloadCup.Lib.Json.Parser
import HighloadCup.Lib.Json.Encoding
import HighloadCup.Lib.Json.Flat
import HighloadCup.Util
import HighloadCup.Numbers
import HighloadCup.Document
import HighloadCup.Counting
import HighloadCup.Entities
import HighloadCup.Acceptance
import HighloadCup.Validation
import HighloadCup.Store
import HighloadCup.Ages
import HighloadCup.AgeBounds
import HighloadCup.Averages
import HighloadCup.Base
import HighloadCup.Outcomes
import HighloadCup.System
import HighloadCup.Steps
import HighloadCup.Invariants
import HighloadCup.Cache
import HighloadCup.Indexes
import HighloadCup.Updates
import HighloadCup.Contract
import HighloadCup.Writes
import HighloadCup.Queries
import HighloadCup.Marks
import HighloadCup.RoundTrip
import HighloadCup.Http
import HighloadCup.Options
import HighloadCup.Processor
import HighloadCup.Dates
import HighloadCup.Responses
import HighloadCup.Isolation
import HighloadCup.Requests
import HighloadCup.Multipart
import HighloadCup.Scanning
import HighloadCup.Forms
import HighloadCup.HttpMessages
import HighloadCup.HttpProto
import HighloadCup.HttpReading
import HighloadCup.HttpRoundTrip
import HighloadCup.HttpResuming
import HighloadCup.HttpCases
import HighloadCup.Agreement
import HighloadCup.Slices
import HighloadCup.Placement
import HighloadCup.Loader
import HighloadCup.Threads
import HighloadCup.Interleaving
import HighloadCup.Stored
import HighloadCup.Schedules
import HighloadCup.Service
import HighloadCup.Merging
import HighloadCup.Sharing
import HighloadCup.Linearization
import HighloadCup.Server
import HighloadCup.WorkQueues
import HighloadCup.Worker
import HighloadCup.Wakeups
import HighloadCup.Progress

import Esnacc.Lib.BitString
import Esnacc.Lib.StreamCodec
import Esnacc.Runtime.Exception
import Esnacc.Per.BitBuffer
import Esnacc.Per.BitQueue
import Esnacc.Per.BitFifo
import Esnacc.Per.General
import Esnacc.Lib.TwosComplement
import Esnacc.Runtime.Int
import Esnacc.Per.Strings
import Esnacc.Per.Integer
import Esnacc.Per.IntegerOffset
import Esnacc.Per.IntegerRoundTrip
import Esnacc.Per.Size
import Esnacc.Per.SizeRoundTrip
import Esnacc.Lib.BigEndian
import Esnacc.Lib.Walk
import Esnacc.Lib.Precedence
import Esnacc.Lib.Cursor
import Esnacc.Ber.SetOf
import Esnacc.Runtime.AnyTable
import Esnacc.Rose.InvokeReply
import Esnacc.Rose.InvokeIds
import Esnacc.Rose.PoolAccounting
import Esnacc.Rose.PoolDrain
import Esnacc.Rose.PoolProgress
import Esnacc.Rose.PauseFinality
import Esnacc.Rose.ProcessingGate
import Esnacc.Rose.AsyncCallbacks
import Esnacc.Rose.TimeoutWatchdog
import Esnacc.Lib.Tlv
import Esnacc.Ber.Int
import Esnacc.Ber.List
import Esnacc.Ber.Strings
import Esnacc.Ber.Bits
import Esnacc.Ber.Any
import Esnacc.Per.SetOf
import Esnacc.Ber.Extension
import Esnacc.Ber.CharString
import Esnacc.Ber.WideString
import Esnacc.Ber.ConsStringFill
import Esnacc.Rose.SessionSubscription
import Esnacc.Runtime.Base64
import Esnacc.Runtime.OidJson
import Esnacc.Runtime.OptionalParamJson
import Esnacc.CLib.Int
import Esnacc.CLib.ExpBuf
import Esnacc.CLib.ExpBufRead
import Esnacc.CLib.ExpBufWrite
import Esnacc.Compiler.TypeGraph
import Esnacc.Compiler.WalkTermination
import Esnacc.Compiler.FirstTagTermination
import Esnacc.Compiler.Imports
import Esnacc.Compiler.ImportScope
import Esnacc.Compiler.ImportResolution
import Esnacc.Compiler.SortTypes
import Esnacc.Compiler.SortOrder
import Esnacc.Compiler.SortCorrectness
import Esnacc.Compiler.ErrChk
import Esnacc.Compiler.ErrChkStatus
import Esnacc.Compiler.TagReading
import Esnacc.Compiler.Normalize
import Esnacc.Compiler.NormalizeSteps
import Esnacc.Compiler.NormalizeRun
import Esnacc.CLib.Bits
import Esnacc.CLib.ConsBits
import Esnacc.Lib.Deframe
import Esnacc.Ts.Framing
import Esnacc.Ts.FramingReading
import Esnacc.Ts.FramingLoop
import Esnacc.Ts.FramingRecovery
import Esnacc.Ts.FramingChunks
import Esnacc.Ts.PendingInvokes
import Esnacc.Ts.ClientInvokes
import Esnacc.Ts.ServerInvokes
import Esnacc.Ts.Gate
import Esnacc.Ts.Receive
import Esnacc.Ts.Connect
import Esnacc.Ts.Base64Text
import Esnacc.Ts.ConverterBase
import Esnacc.Ts.JsonConverter
import Esnacc.Ts.JsonRoundTrip
import Esnacc.Lib.MarkedLog
import Esnacc.Ts.BerConverter
import Esnacc.Ts.ConverterSteps
import Esnacc.Ts.JsonSteps
import Esnacc.Ts.BerSteps
import Esnacc.Ts.AllOrNothing
import Esnacc.Generated.Names
import Esnacc.Generated.Json
import Esnacc.Generated.ChoiceJson
import Esnacc.Generated.Tag
import Esnacc.Generated.Element
import Esnacc.Generated.Sequence
import Esnacc.Generated.SequenceRoundTrip
import Esnacc.Generated.ElementRoundTrip
import Esnacc.Generated.SequenceCodec
import Esnacc.Generated.Set
import Esnacc.Generated.LengthForms
import Esnacc.Generated.Defaults
import Esnacc.Generated.Complete
import Esnacc.Generated.Choice
import Esnacc.Generated.ChoiceRoundTrip
import Esnacc.Lib.ExchangeSort
import Esnacc.Generated.Per
import Esnacc.Generated.ConstraintLists
import Esnacc.Compiler.ValueRefs
import Esnacc.Compiler.ValuePlaces
import Esnacc.Compiler.ValueLinking
import Esnacc.Compiler.FilteredFiles
import Esnacc.Lib.Utf8
import Esnacc.Ts.Base64Agreement
import Esnacc.Compiler.ModuleVersions
import Esnacc.Ts.JsonText
import Esnacc.Ts.DecodeEncoding
import Esnacc.Ts.Settlement
import Esnacc.Ts.RestInvokes
import Esnacc.Ts.SendFrames
import Esnacc.Ts.OptionalParams
import Esnacc.Lib.Extends
import Esnacc.Generated.FirstOptional
import Esnacc.Compiler.ImportSegments
import Esnacc.Compiler.FilteredImports
import Esnacc.Compiler.CommentMaps
import Esnacc.Compiler.CommentTags
import Esnacc.Compiler.CommentTagRuns
import Esnacc.Compiler.TaggedModules
import Esnacc.Compiler.TagHelpers
import Esnacc.Rose.PoolCounters
import Esnacc.Lib.EntryMap
import Esnacc.Rose.LoadedModules
import Esnacc.Rose.OperationLookup
import Esnacc.Ts.OperationRegistry
import Esnacc.Compiler.EncodedOid
import Esnacc.CLib.Utf8String
import Esnacc.Compiler.UniqueNames
import Esnacc.Compiler.UniformErrors
import Esnacc.Ts.CachedEvents
import Esnacc.Lib.SimplePath
import Esnacc.Compiler.RecursiveTypes
import Esnacc.Generated.HeaderRoundTrip
import Esnacc.Runtime.IntStore
import Esnacc.Runtime.IntGetters
import Esnacc.Runtime.IntOrder
import Esnacc.Runtime.IntText
import Esnacc.Runtime.BitSize
import Esnacc.Ber.NamedBits
import Esnacc.Per.RestrictedString
import Esnacc.Per.RestrictedRoundTrip
import Esnacc.Ber.ReverseBuffer
import Esnacc.Lib.LinkedSegment
import Esnacc.Lib.CursorEdit
import Esnacc.CLib.AsnList
import Esnacc.CLib.AsnListSteps
import Esnacc.CLib.AsnListRuns
import Esnacc.Compiler.TagLists
import Esnacc.Rose.JsonHeader
import Esnacc.Runtime.HashMap
import Esnacc.Lib.SwapSort
import Esnacc.Per.EnumIndex
import Esnacc.Lib.TextReplace
import Esnacc.Compiler.StrReplace
import Esnacc.Rose.Configure
import Esnacc.Rose.JsonMessages

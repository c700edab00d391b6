import AgencyNode.Runtime
import AgencyNode.Slice
import AgencyNode.HelperStrings
import AgencyNode.ImmerMap
import AgencyNode.Node
import AgencyNode.NodeOperations
import AgencyNode.NodeConditions
import AgencyNode.Store
import AgencyNode.NodeContainer
import AgencyNode.Tree
import AgencyNode.NodeLens
import AgencyNode.Transform
import AgencyNode.Completeness
import AgencyNode.StoreCompleteness
import AgencyNode.StoreConcurrency
import AgencyNode.Deserialize.Deserializer
import AgencyNode.Deserialize.Containers
import AgencyNode.Deserialize.Dependent
import AgencyNode.Deserialize.ParameterList
import AgencyNode.OperationDeserializer
import AgencyNode.TransactionGrammar
import AgencyNode.EnvelopeExceptions
import AgencyNode.DeserializedMeaning
import AgencyNode.StoreTtl
import AgencyNode.NodeOverlay
import AgencyNode.DistinctKeys
import AgencyNode.OverlayLaws
import AgencyNode.Serialization
import AgencyNode.AbsentPaths
import AgencyNode.IterationOrder
import AgencyNode.NodeEquality
import AgencyNode.Lib.Copying
import AgencyNode.Extract
import AgencyNode.Lib.ThreadPool
import AgencyNode.Futures
import AgencyNode.FutureTokens
import AgencyNode.FutureDelivery
import AgencyNode.FutureTraces
import AgencyNode.FutureValues
import AgencyNode.Deserialize.Conditional
import AgencyNode.Deserialize.Plan
import AgencyNode.HintSoundness
import AgencyNode.ImmutableList
import AgencyNode.ArrayIndices
import AgencyNode.NegatedConditions
import AgencyNode.ListOperators
import AgencyNode.FixedOrderErrors
import AgencyNode.RecursiveDeserializer
import AgencyNode.ParameterTuple
import AgencyNode.Lib.OrderedMap
import AgencyNode.FlatStore
import AgencyNode.AccessPath
import AgencyNode.ErrorPropagation
import AgencyNode.Backtrace
import AgencyNode.Lib.PackedArray
import AgencyNode.Champ
import AgencyNode.ChampSlots
import AgencyNode.ChampUpdates
import AgencyNode.ChampRefinement
import AgencyNode.ChampIterator
import AgencyNode.ChampEquality
import AgencyNode.Lib.Utf8
import AgencyNode.JsonParser
import AgencyNode.JsonNumerals
import AgencyNode.JsonStrings
import AgencyNode.JsonGrammar
import AgencyNode.JsonDumper
import AgencyNode.JsonRoundtrip
import AgencyNode.NodeText
import AgencyNode.Lib.RegisterOrder
import AgencyNode.Lib.RegisterLinear
import AgencyNode.Lib.RegisterProgress
import AgencyNode.StoreProgress
import AgencyNode.StoreRaces
import AgencyNode.ErrorText
import AgencyNode.Lib.BinarySearch
import AgencyNode.Lib.ByteIntegers
import AgencyNode.Lib.Frames
import AgencyNode.VPackBuilder
import AgencyNode.VPackReading
import AgencyNode.VPackLayout
import AgencyNode.VPackAccess
import AgencyNode.VPackIterators
import AgencyNode.VPackMembers
import AgencyNode.VPackLookup
import AgencyNode.VPackRoundtrip

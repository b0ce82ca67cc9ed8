import Lasagne.Trans.Run
import Lasagne.Trans.Count
import Lasagne.Trans.Normal
import Lasagne.Trans.Attempts
import Lasagne.Daf.Semaphore
import Lasagne.Daf.Party
import Lasagne.Daf.PartyAccount
import Lasagne.Daf.PartyCycle
import Lasagne.Daf.PartyReset
import Lasagne.Daf.Barrier
import Lasagne.Daf.Rendezvous
import Lasagne.Daf.WaitReset
import Lasagne.Daf.SynchronousChannel
import Lasagne.Daf.Encounter
import Lasagne.Daf.ChannelStory
import Lasagne.Daf.ChannelSize
import Lasagne.Daf.HandOff
import Lasagne.Daf.ChannelCall
import Lasagne.Daf.TaskExecutor
import Lasagne.Daf.TaskStage
import Lasagne.Daf.TaskOwner
import Lasagne.Daf.TaskReport
import Lasagne.Daf.ThreadCount
import Lasagne.Daf.ObjectRef
import Lasagne.Daf.SynchValue
import Lasagne.Daf.SynchWaiters
import Lasagne.Daf.FutureResult
import Lasagne.Daf.TimeOfDay
import Lasagne.Daf.SemaphoreRuns
import Lasagne.Daf.CountDownSemaphore
import Lasagne.Daf.SemaphoreControlledQueue
import Lasagne.Daf.Bitset
import Lasagne.Daf.BitsetPadding
import Lasagne.Dev.TtyStream
import Lasagne.Dev.TtyRing
import Lasagne.Dev.TtyDevice
import Lasagne.Dev.TtyHandler
import Lasagne.Daf.ConstrainedExecutor
import Lasagne.Taf.Discovery
import Lasagne.Taf.DiscoveryFraming
import Lasagne.Daf.TrimString
import Lasagne.Daf.TrimEnds
import Lasagne.Taf.CosNaming
import Lasagne.Taf.NamingContext
import Lasagne.Taf.NamingAgreement
import Lasagne.Taf.NamingFrame
import Lasagne.Daf.ServiceGestalt
import Lasagne.Taf.IORResolver
import Lasagne.Ldbc.SQLiteQuery
import Lasagne.Ldbc.SQLiteParameter
import Lasagne.Daf.SemaphorePreference
import Lasagne.Dev.TtyTransfer
import Lasagne.Daf.BitsetLength
import Lasagne.Daf.BitsetOperators
import Lasagne.Daf.BitsetExhaustion
import Lasagne.Daf.BitsetCutting
import Lasagne.Daf.BitsetOrder
import Lasagne.Daf.Expansion
import Lasagne.Trans.Acyclic
import Lasagne.Trans.Fuel
import Lasagne.Daf.ExpansionCycle
import Lasagne.Daf.FormatLoop
import Lasagne.Daf.FormatPass
import Lasagne.Daf.Configurator
import Lasagne.Daf.ConfiguratorLists
import Lasagne.Daf.ConfiguratorGrammar
import Lasagne.Daf.ConfiguratorLoad
import Lasagne.Taf.SecurityLoader
import Lasagne.Cal.Gregorian
import Lasagne.Daf.DateTime
import Lasagne.Wire.Lex
import Lasagne.Wire.Format
import Lasagne.Daf.DateTimeDays
import Lasagne.Daf.DateTimeInstant
import Lasagne.Daf.DateTimeText
import Lasagne.Daf.DateTimeYear
import Lasagne.Daf.ServiceGestaltLoader
import Lasagne.Daf.ArgvRound
import Lasagne.Taf.IORBinder
import Lasagne.Dev.TtyConfig
import Lasagne.Taf.ORBArguments
import Lasagne.Wire.ByteOrder
import Lasagne.Taf.CDRStream
import Lasagne.Lang.Blocks
import Lasagne.Lang.Guards
import Lasagne.Idl.Visitor
import Lasagne.Idl.EnumSupport
import Lasagne.Idl.EnumMeaning
import Lasagne.Idl.TafSupport
import Lasagne.Trans.Registry
import Lasagne.Taf.DDSPubSub
import Lasagne.Trans.KeyedList
import Lasagne.Taf.IORServantRepository
import Lasagne.Taf.DiscoveryNet
import Lasagne.Trans.Serial
import Lasagne.Daf.GestaltThreads
import Lasagne.Daf.SemaphoreControlledPriorityChannel
import Lasagne.Daf.ShutdownHandler
import Lasagne.Trans.ReadThrough
import Lasagne.Daf.PropertyManager
import Lasagne.Taf.PropertyServer
import Lasagne.Taf.PropertyLoader
